import Jacl.SharedCells
import Mathlib.Data.List.Permutation

/-!
# No update of a shared cell is lost

What the cells hold, and what each update does to them one after another (`Cells.apply`).
A run goes through the steps of many calls at once; in the order of its log the finished
calls, taken one after another, give the cells the run has reached (`Steady.linearizable`).
A root and a value are replaced only while they are what was read.  A list of watchers is
stored whatever it is by then, so this holds of a run where it is still what was read; and
an error that is set as a global takes the place of the map.
-/

namespace Jacl.Shared
open Hamt Function JaclVal

variable {K : Type} {eq : K → K → Bool} {hash : K → BitVec 32}

/-! ### Updates one after another -/

/-- **What the cells hold**: finite maps, values and lists. -/
structure Cells (hL : Lawful eq hash) where
  maps : RootId → AbstractMap hL JaclVal
  value : Nat → JaclVal
  watchers : Nat → List (JaclVal × JaclVal)

/-- What a map says of a key; an absent one reads as nil. -/
def lookup (hL : Lawful eq hash) (m : AbstractMap hL JaclVal) (key : K) : JaclVal :=
  (m (cls hL key)).getD nil

def Update.root : Update K → Option RootId
  | .globalSet _ _ => some .globals
  | .sigRegister _ _ => some .sigs
  | .sigForget _ => some .sigs
  | _ => none

/-- An update of its root's map: a function's signature never changes. -/
noncomputable def Update.onMap (hL : Lawful eq hash) (m : AbstractMap hL JaclVal) :
    Update K → AbstractMap hL JaclVal
  | .globalSet name v => m.apply hL (.set name v)
  | .sigRegister fnref sig =>
    if (lookup hL m fnref).type = 0x00 then m.apply hL (.set fnref sig) else m
  | .sigForget fnref => if (lookup hL m fnref).type = 0x00 then m else m.apply hL (.unset fnref)
  | _ => m

def Update.onValue (value : Nat → JaclVal) : Update K → Nat → JaclVal
  | .swap ref _ nv => update value ref nv
  | .reset ref v => update value ref v
  | _ => value

def Update.onWatchers (valEq : JaclVal → JaclVal → Bool)
    (watchers : Nat → List (JaclVal × JaclVal)) : Update K → Nat → List (JaclVal × JaclVal)
  | .watch atom key cb => update watchers atom (watchSet valEq key cb (watchers atom))
  | .unwatch atom key => update watchers atom (watchDrop valEq key (watchers atom))
  | _ => watchers

/-- A `swap` replaces the value its function was applied to. -/
def Update.Legal (value : Nat → JaclVal) : Update K → Prop
  | .swap ref cur _ => value ref = cur
  | _ => True

variable {hL : Lawful eq hash} {valEq : JaclVal → JaclVal → Bool}

noncomputable def Cells.apply (valEq : JaclVal → JaclVal → Bool) (c : Cells hL) (u : Update K) :
    Cells hL where
  maps r := if u.root = some r then u.onMap hL (c.maps r) else c.maps r
  value := u.onValue c.value
  watchers := u.onWatchers valEq c.watchers

/-- The cells before the first call. -/
def Cells.start (hL : Lawful eq hash) (value : Nat → JaclVal) (watchers : Nat → Watchers) :
    Cells hL where
  maps _ _ := none
  value := value
  watchers a := (watchers a).getD []

/-- **Updates, one after another**, from `c`. -/
inductive Replays (valEq : JaclVal → JaclVal → Bool) (c : Cells hL) :
    List (Update K) → Cells hL → Prop
  | nil : Replays valEq c [] c
  | snoc {us : List (Update K)} {c' : Cells hL} {u : Update K} : Replays valEq c us c' →
      u.Legal c'.value → Replays valEq c (us ++ [u]) (c'.apply valEq u)

/-- A call is of an update; the `swap` has applied its function once to what it replaced. -/
def Op.Does : Op K → Update K → Prop
  | .swap ref f, u => ∃ cur nv, f cur nv ∧ u = .swap ref cur nv
  | .reset ref v, u => u = .reset ref v
  | op, u => op.rootUpdate = some u ∨ op.listUpdate = some u

/-! ### What a run must reach -/

/-- A root's word stands for a map. -/
def Root.Denotes (hL : Lawful eq hash) : Root K → AbstractMap hL JaclVal → Prop
  | .nil, m => m = fun _ => none
  | .map _ t, m => Hamt.Denotes hL t m
  | .err _, _ => False

/-- The state's words are those of the cells. -/
structure Shows (s : State K) (c : Cells hL) : Prop where
  maps : ∀ r, (s.root r).Denotes hL (c.maps r)
  value : s.value = c.value
  watchers : ∀ atom, (s.watchers atom).getD [] = c.watchers atom

/-- Every call that was made is in one place: under way in one task, or in the log. -/
structure Tickets (s : State K) : Prop where
  begun : ∀ t, ∀ fr ∈ s.tasks t, s.begun[fr.id]? = some fr.op
  nodup : ∀ t, ((s.tasks t).map Frame.id).Nodup
  apart : ∀ t t', t ≠ t' → ∀ fr ∈ s.tasks t, ∀ fr' ∈ s.tasks t', fr.id ≠ fr'.id
  pending : ∀ t, ∀ fr ∈ s.tasks t, ∀ e ∈ s.log, e.1 ≠ fr.id
  once : (s.log.map Prod.fst).Nodup
  logged : ∀ e ∈ s.log, ∃ op, s.begun[e.1]? = some op ∧ op.Does e.2
  done : ∀ i op, s.begun[i]? = some op →
    (∃ t, ∃ fr ∈ s.tasks t, fr.id = i) ∨ ∃ u, (i, u) ∈ s.log

theorem tickets_init (value : Nat → JaclVal) (watchers : Nat → Watchers) :
    Tickets (init value watchers : State K) where
  begun t fr hfr := absurd hfr List.not_mem_nil
  nodup t := List.nodup_nil
  apart t t' _ fr hfr := absurd hfr List.not_mem_nil
  pending t fr hfr := absurd hfr List.not_mem_nil
  once := List.nodup_nil
  logged e he := absurd he List.not_mem_nil
  done i op hi := by cases hi

section
variable {s s' : State K} {t : Nat} {fr : Frame K} {rest : List (Frame K)}

/-- A new call. -/
theorem Tickets.call (h : Tickets s) (op : Op K) : Tickets (s.call t op) := by
  have hlt : ∀ {i : Nat} {op : Op K}, s.begun[i]? = some op → i < s.begun.length := by
    intro i op hi
    exact (List.getElem?_eq_some_iff.mp hi).1
  have hkeep : ∀ {i : Nat} {op' : Op K}, s.begun[i]? = some op' →
      (s.begun ++ [op])[i]? = some op' := by
    intro i op' hi
    rw [List.getElem?_append_left (hlt hi), hi]
  have hmem : ∀ {t' : Nat} {fr : Frame K}, fr ∈ (s.call t op).tasks t' →
      (t' = t ∧ fr = ⟨s.begun.length, op, .begun⟩) ∨ fr ∈ s.tasks t' := by
    intro t' fr hfr
    by_cases ht : t' = t
    · subst ht
      rw [State.call_tasks, update_self] at hfr
      exact (List.mem_cons.mp hfr).imp (⟨rfl, ·⟩) id
    · rw [State.call_tasks, update_of_ne ht] at hfr
      exact .inr hfr
  have hold : ∀ {t' : Nat} {fr : Frame K}, fr ∈ s.tasks t' → fr.id ≠ s.begun.length := by
    intro t' fr hfr he
    have := hlt (h.begun t' fr hfr)
    omega
  refine ⟨fun t' fr hfr => ?_, fun t' => ?_, fun t' t'' hne fr hfr fr' hfr' => ?_,
    fun t' fr hfr e he => ?_, h.once, fun e he => ?_, fun i op' hi => ?_⟩
  · rcases hmem hfr with ⟨-, rfl⟩ | hfr
    · rw [State.call_begun, List.getElem?_append_right (Nat.le_refl _), Nat.sub_self]
      rfl
    · exact hkeep (h.begun t' fr hfr)
  · by_cases ht : t' = t
    · subst ht
      rw [State.call_tasks, update_self, List.map_cons, List.nodup_cons]
      refine ⟨fun hid => ?_, h.nodup t'⟩
      obtain ⟨fr, hfr, hid⟩ := List.mem_map.mp hid
      exact hold hfr hid
    · rw [State.call_tasks, update_of_ne ht]
      exact h.nodup t'
  · rcases hmem hfr with ⟨ht', hnew⟩ | hin
    · rcases hmem hfr' with ⟨ht'', -⟩ | hin'
      · exact absurd (ht'.trans ht''.symm) hne
      · rw [hnew]
        exact (hold hin').symm
    · rcases hmem hfr' with ⟨-, hnew⟩ | hin'
      · rw [hnew]
        exact hold hin
      · exact h.apart t' t'' hne fr hin fr' hin'
  · rcases hmem hfr with ⟨-, rfl⟩ | hfr
    · obtain ⟨op', hop, -⟩ := h.logged e he
      have := hlt hop
      change e.1 ≠ s.begun.length
      omega
    · exact h.pending t' fr hfr e he
  · obtain ⟨op', hop, hdoes⟩ := h.logged e he
    exact ⟨op', hkeep hop, hdoes⟩
  · by_cases hi' : i < s.begun.length
    · rw [State.call_begun, List.getElem?_append_left hi'] at hi
      refine (h.done i op' hi).imp (fun ⟨t', fr, hfr, hid⟩ => ⟨t', fr, ?_, hid⟩) id
      by_cases ht : t' = t
      · subst ht
        rw [State.call_tasks, update_self]
        exact List.mem_cons_of_mem _ hfr
      · rwa [State.call_tasks, update_of_ne ht]
    · have := (List.getElem?_eq_some_iff.mp hi).1
      rw [State.call_begun, List.length_append, List.length_singleton] at this
      refine .inl ⟨t, ⟨s.begun.length, op, .begun⟩, ?_, show s.begun.length = i by omega⟩
      rw [State.call_tasks, update_self]
      exact List.mem_cons_self

/-- The innermost call goes on: it is the same call. -/
theorem Tickets.goTo (h : Tickets s) (ht : s.tasks t = fr :: rest) (pc : Pc K) :
    Tickets (s.goTo t fr rest pc) := by
  have hmem : ∀ {t' : Nat} {fr' : Frame K}, fr' ∈ (s.goTo t fr rest pc).tasks t' →
      ∃ fr'' ∈ s.tasks t', fr''.id = fr'.id ∧ fr''.op = fr'.op := by
    intro t' fr' hfr
    by_cases htt : t' = t
    · subst htt
      rw [State.goTo_tasks, update_self] at hfr
      rw [ht]
      rcases List.mem_cons.mp hfr with rfl | hfr
      · exact ⟨fr, List.mem_cons_self, rfl, rfl⟩
      · exact ⟨fr', List.mem_cons_of_mem _ hfr, rfl, rfl⟩
    · rw [State.goTo_tasks, update_of_ne htt] at hfr
      exact ⟨fr', hfr, rfl, rfl⟩
  refine ⟨fun t' fr' hfr => ?_, fun t' => ?_, fun t' t'' hne fr₁ h₁ fr₂ h₂ => ?_,
    fun t' fr' hfr e he => ?_, h.once, h.logged, fun i op hi => ?_⟩
  · obtain ⟨fr'', hfr'', hid, hop⟩ := hmem hfr
    rw [← hid, ← hop]
    exact h.begun t' fr'' hfr''
  · by_cases htt : t' = t
    · subst htt
      rw [State.goTo_tasks, update_self]
      have := h.nodup t'
      rwa [ht] at this
    · rw [State.goTo_tasks, update_of_ne htt]
      exact h.nodup t'
  · obtain ⟨fr₁', h₁', hid₁, -⟩ := hmem h₁
    obtain ⟨fr₂', h₂', hid₂, -⟩ := hmem h₂
    rw [← hid₁, ← hid₂]
    exact h.apart t' t'' hne fr₁' h₁' fr₂' h₂'
  · obtain ⟨fr'', hfr'', hid, -⟩ := hmem hfr
    rw [← hid]
    exact h.pending t' fr'' hfr'' e he
  · refine (h.done i op hi).imp (fun ⟨t', fr', hfr, hid⟩ => ?_) id
    by_cases htt : t' = t
    · subst htt
      rw [ht] at hfr
      rcases List.mem_cons.mp hfr with rfl | hfr
      · refine ⟨t', { fr' with pc := pc }, ?_, hid⟩
        rw [State.goTo_tasks, update_self]
        exact List.mem_cons_self
      · exact ⟨t', fr', by rw [State.goTo_tasks, update_self]; exact List.mem_cons_of_mem _ hfr, hid⟩
    · exact ⟨t', fr', by rwa [State.goTo_tasks, update_of_ne htt], hid⟩

/-- The innermost call goes from its task to the log. -/
theorem Tickets.finish (h : Tickets s) (ht : s.tasks t = fr :: rest) {u : Update K}
    (hu : fr.op.Does u) : Tickets (s.finish t fr rest u) := by
  have htop : fr ∈ s.tasks t := by
    rw [ht]
    exact List.mem_cons_self
  have hmem : ∀ {t' : Nat} {fr' : Frame K}, fr' ∈ (s.finish t fr rest u).tasks t' →
      fr' ∈ s.tasks t' ∧ fr'.id ≠ fr.id := by
    intro t' fr' hfr
    by_cases htt : t' = t
    · subst htt
      rw [State.finish_tasks, update_self] at hfr
      have hnd := h.nodup t'
      rw [ht, List.map_cons, List.nodup_cons] at hnd
      rw [ht]
      refine ⟨List.mem_cons_of_mem _ hfr, fun hid => hnd.1 ?_⟩
      rw [← hid]
      exact List.mem_map_of_mem hfr
    · rw [State.finish_tasks, update_of_ne htt] at hfr
      exact ⟨hfr, h.apart t' t htt fr' hfr fr htop⟩
  refine ⟨fun t' fr' hfr => h.begun t' fr' (hmem hfr).1, fun t' => ?_,
    fun t' t'' hne fr₁ h₁ fr₂ h₂ => h.apart t' t'' hne fr₁ (hmem h₁).1 fr₂ (hmem h₂).1,
    fun t' fr' hfr e he => ?_, ?_, fun e he => ?_, fun i op hi => ?_⟩
  · by_cases htt : t' = t
    · subst htt
      have hnd := h.nodup t'
      rw [ht, List.map_cons, List.nodup_cons] at hnd
      rw [State.finish_tasks, update_self]
      exact hnd.2
    · rw [State.finish_tasks, update_of_ne htt]
      exact h.nodup t'
  · rcases List.mem_append.mp he with he | he
    · exact h.pending t' fr' (hmem hfr).1 e he
    · rw [List.mem_singleton.mp he]
      exact (hmem hfr).2.symm
  · rw [State.finish_log, List.map_append, List.map_singleton, List.nodup_append]
    refine ⟨h.once, List.nodup_singleton _, fun i hi j hj => ?_⟩
    obtain ⟨e, he, rfl⟩ := List.mem_map.mp hi
    rw [List.mem_singleton.mp hj]
    exact h.pending t fr htop e he
  · rcases List.mem_append.mp he with he | he
    · exact h.logged e he
    · rw [List.mem_singleton.mp he]
      exact ⟨fr.op, h.begun t fr htop, hu⟩
  · rcases h.done i op hi with ⟨t', fr', hfr, hid⟩ | ⟨u', hu'⟩
    · by_cases hi' : i = fr.id
      · exact .inr ⟨u, by rw [hi']; exact List.mem_append_right _ List.mem_cons_self⟩
      · refine .inl ⟨t', fr', ?_, hid⟩
        by_cases htt : t' = t
        · subst htt
          rw [ht] at hfr
          rw [State.finish_tasks, update_self]
          rcases List.mem_cons.mp hfr with rfl | hfr
          · exact absurd hid.symm hi'
          · exact hfr
        · rwa [State.finish_tasks, update_of_ne htt]
    · exact .inr ⟨u', List.mem_append_left _ hu'⟩

/-- The other words of the state do not matter. -/
theorem Tickets.of_eq (h : Tickets s) (ht : s'.tasks = s.tasks) (hb : s'.begun = s.begun)
    (hl : s'.log = s.log) : Tickets s' := by
  obtain ⟨h₁, h₂, h₃, h₄, h₅, h₆, h₇⟩ := h
  constructor <;> simp only [ht, hb, hl] <;> assumption

theorem Op.does_of_rootUpdate {op : Op K} {u : Update K} (hu : op.rootUpdate = some u) :
    op.Does u := by
  cases op with
  | swap | reset => cases hu
  | _ => exact .inl hu

theorem Op.does_of_listUpdate {op : Op K} {u : Update K} (hu : op.listUpdate = some u) :
    op.Does u := by
  cases op with
  | swap | reset => cases hu
  | _ => exact .inr hu

/-- The function of a `swap` that is about to commit has returned what it commits. -/
def Returned (s : State K) : Prop :=
  ∀ t, ∀ fr ∈ s.tasks t, ∀ ref f cur nv, fr.op = .swap ref f → fr.pc = .committing cur nv → f cur nv

/-- **Each call once**: one step. -/
theorem StepBy.tickets (hstep : StepBy eq hash valEq t s s') (h : Tickets s) (hf : Returned s) :
    Tickets s' := by
  cases hstep with
  | call op => exact h.call op
  | skip ht hpc hr ha hu => exact h.finish ht (Op.does_of_rootUpdate hu)
  | peek ht hpc hr ha => exact (h.goTo ht _).of_eq rfl rfl rfl
  | replaced ht hpc hr hseen hu => exact (h.finish ht (Op.does_of_rootUpdate hu)).of_eq rfl rfl rfl
  | lost ht hpc hr hseen => exact h.goTo ht _
  | read ht hpc hop => exact h.goTo ht _
  | applied ht hpc hop hf => exact h.goTo ht _
  | @committed fr rest ref f cur nv ht hpc hop hcur =>
    have hres : f cur nv := by
      refine hf t fr ?_ ref f cur nv hop hpc
      rw [ht]
      exact List.mem_cons_self
    have hdoes : fr.op.Does (.swap ref cur nv) := by
      rw [hop]
      exact ⟨cur, nv, hres, rfl⟩
    exact (h.finish ht hdoes).of_eq rfl rfl rfl
  | retry ht hpc hop hcur => exact h.goTo ht _
  | old ht hpc hop => exact h.goTo ht _
  | @store fr rest ref v ht hpc hop =>
    have hdoes : fr.op.Does (.reset ref v) := by
      rw [hop]
      rfl
    exact (h.finish ht hdoes).of_eq rfl rfl rfl
  | unlisted ht hpc ha hw hu => exact h.finish ht (Op.does_of_listUpdate hu)
  | list ht hpc ha hw => exact h.goTo ht _
  | relist ht hpc ha hw hu => exact (h.finish ht (Op.does_of_listUpdate hu)).of_eq rfl rfl rfl

end

/-! ### One update -/

theorem denotes_rootMap {m : Root K} {a : AbstractMap hL JaclVal} (hm : m.Denotes hL a) :
    (rootMap m).Denotes hL a := by
  cases m with
  | nil =>
    rw [show a = fun _ => none from hm]
    exact denotes_empty hL
  | map | err => exact hm

/-- Reading a map's word. -/
theorem Root.Denotes.get {m : Root K} {a : AbstractMap hL JaclVal} (hm : m.Denotes hL a) (key : K) :
    (rootMap m).get eq hash key = some (lookup hL a key) := by
  have hget : ∀ {t : Hamt.Node K JaclVal}, Hamt.Denotes hL t a →
      Hamt.get eq hash t key = some (lookup hL a key) := by
    intro t ht
    obtain ⟨o, ho, hv⟩ := ht.getLeaf key
    rw [Hamt.get, ho, lookup, ← hv]
    rfl
  cases m with
  | nil =>
    rw [show a = fun _ => none from hm] at hget ⊢
    exact hget (denotes_empty hL)
  | map addr t => exact hget hm
  | err v => exact hm.elim

theorem Root.Denotes.set {m : Root K} {a : AbstractMap hL JaclVal} (hm : m.Denotes hL a)
    {addr : Nat} {key : K} {val : JaclVal} (hv : val.error = false) {m' : Root K}
    (hset : (rootMap m).set eq hash addr key val = some m') :
    m'.Denotes hL (a.apply hL (.set key val)) := by
  have hm' := denotes_rootMap hm
  cases hr : rootMap m with
  | nil =>
    rw [hr] at hset
    cases hset
  | err v =>
    rw [hr] at hm'
    exact hm'.elim
  | map addr' t =>
    rw [hr] at hm' hset
    obtain ⟨t', ht', hden⟩ := set_denotes hm' key val
    rw [Root.set, hv, ht'] at hset
    rw [← Option.some.inj hset]
    exact hden

theorem Root.Denotes.remove {m : Root K} {a : AbstractMap hL JaclVal} (hm : m.Denotes hL a)
    {addr : Nat} {key : K} {m' : Root K}
    (hrem : (rootMap m).remove eq hash addr key = some m') :
    m'.Denotes hL (a.apply hL (.unset key)) := by
  have hm' := denotes_rootMap hm
  cases hr : rootMap m with
  | nil =>
    rw [hr] at hrem
    cases hrem
  | err v =>
    rw [hr] at hm'
    exact hm'.elim
  | map addr' t =>
    rw [hr] at hm' hrem
    obtain ⟨t', b, ht', hden⟩ := unset_denotes hm' key
    rw [Root.remove, Hamt.unset, ht'] at hrem
    rw [← Option.some.inj hrem]
    exact hden

/-- A call on a root sets no error: `jacl_map_set` would return it in the map's place. -/
def Op.Clean : Op K → Prop
  | .globalSet _ v => v.error = false
  | .sigRegister _ sig => sig.error = false
  | _ => True

/-- What a loop's body finds is a map's update. -/
def Attempt.Gives (hL : Lawful eq hash) (a a' : AbstractMap hL JaclVal) : Attempt K → Prop
  | .done => a' = a
  | .replace next => next.Denotes hL a'

/-- **The body of a loop** is the update, of the map that was read. -/
theorem Op.attempt_spec {op : Op K} {u : Update K} {addr : Nat} {seen : Root K}
    {a : AbstractMap hL JaclVal} {r : Attempt K} (hm : seen.Denotes hL a)
    (hu : op.rootUpdate = some u) (hc : op.Clean) (ha : op.attempt eq hash addr seen = some r) :
    r.Gives hL a (u.onMap hL a) := by
  cases op with
  | globalSet name v =>
    cases hu
    obtain ⟨m', hset, rfl⟩ := Option.map_eq_some_iff.mp ha
    exact hm.set hc hset
  | sigRegister fnref sig =>
    cases hu
    rw [Op.attempt, hm.get, Option.bind_eq_bind, Option.bind_some] at ha
    simp only [Update.onMap]
    split at ha
    · rename_i hold
      rw [← Option.some.inj ha]
      exact if_neg hold
    · rename_i hold
      obtain ⟨m', hset, rfl⟩ := Option.map_eq_some_iff.mp ha
      rw [if_pos (not_not.mp hold)]
      exact hm.set hc hset
  | sigForget fnref =>
    cases hu
    rw [Op.attempt, hm.get, Option.bind_eq_bind, Option.bind_some] at ha
    simp only [Update.onMap]
    split at ha
    · rename_i hold
      rw [← Option.some.inj ha]
      exact if_pos hold
    · rename_i hold
      obtain ⟨m', hrem, rfl⟩ := Option.map_eq_some_iff.mp ha
      rw [if_neg hold]
      exact hm.remove hrem
  | swap | reset | watch | unwatch => cases hu

/-- A root's update is of that root, and of nothing else. -/
theorem Op.rootUpdate_spec (valEq : JaclVal → JaclVal → Bool) {op : Op K} {u : Update K} {r : RootId} (hr : op.root = some r)
    (hu : op.rootUpdate = some u) (c : Cells hL) :
    c.apply valEq u = { c with maps := update c.maps r (u.onMap hL (c.maps r)) } ∧
      u.Legal c.value := by
  have hmaps : ∀ {r' : RootId}, u.root = some r' →
      (fun q => if u.root = some q then u.onMap hL (c.maps q) else c.maps q) =
        update c.maps r' (u.onMap hL (c.maps r')) := by
    intro r' hr'
    funext q
    rw [hr', update_apply]
    by_cases hq : q = r'
    · subst hq
      rw [if_pos rfl, if_pos rfl]
    · rw [if_neg hq, if_neg fun he => hq (Option.some.inj he).symm]
  cases op with
  | globalSet | sigRegister | sigForget =>
    cases hu
    cases hr
    refine ⟨?_, trivial⟩
    rw [Cells.apply, hmaps rfl]
    rfl
  | swap | reset | watch | unwatch => cases hu

/-- An update of an atom's list. -/
theorem Op.listUpdate_spec (valEq : JaclVal → JaclVal → Bool) {op : Op K} {u : Update K} {atom : Nat} (ha : op.atom = some atom)
    (hu : op.listUpdate = some u) (c : Cells hL) {seen : Watchers}
    (hs : seen.getD [] = c.watchers atom) :
    c.apply valEq u = { c with
      watchers := update c.watchers atom ((op.relist valEq seen).getD []) } ∧
    u.Legal c.value ∧ (op.relist valEq seen = none → c.watchers atom = []) := by
  cases op with
  | watch a key cb =>
    cases hu
    cases ha
    refine ⟨?_, trivial, nofun⟩
    rw [Op.relist, Option.getD_some, hs]
    rfl
  | unwatch a key =>
    cases hu
    cases ha
    cases seen with
    | none =>
      refine ⟨?_, trivial, fun _ => hs.symm⟩
      change ({ c with watchers := update c.watchers atom (watchDrop valEq key (c.watchers atom)) } :
        Cells hL) = { c with watchers := update c.watchers atom [] }
      rw [← hs]
      rfl
    | some w =>
      refine ⟨?_, trivial, nofun⟩
      rw [Op.relist, Option.map_some, Option.getD_some, show w = c.watchers atom from hs]
      rfl
  | globalSet | sigRegister | sigForget | swap | reset => cases hu

/-! ### Runs -/

/-- What a call that has read a root or a value has computed from it. -/
def Frame.Sound (hL : Lawful eq hash) (fr : Frame K) : Prop :=
  match fr.pc with
  | .replacing seen next => ∀ u a, fr.op.rootUpdate = some u → seen.Denotes hL a →
      next.Denotes hL (u.onMap hL a)
  | .committing cur nv => ∀ ref f, fr.op = .swap ref f → f cur nv
  | _ => True

/-- **The invariant of a run**: the log, replayed, gives what the cells hold. -/
structure Replayed (valEq : JaclVal → JaclVal → Bool) (c₀ : Cells hL) (s : State K)
    (c : Cells hL) : Prop where
  replays : Replays valEq c₀ (s.log.map Prod.snd) c
  shows : Shows s c
  sound : ∀ t, ∀ fr ∈ s.tasks t, fr.Sound hL

/-- **When task `t` may step**: the call it is in sets no error, and a list it stores is in
the place of the one it read. -/
def Undisturbed (t : Nat) (s : State K) : Prop :=
  ∀ fr rest, s.tasks t = fr :: rest → fr.op.Clean ∧
    ∀ seen atom, fr.pc = .listed seen → fr.op.atom = some atom → s.watchers atom = seen

/-- **The runs** in which every step is undisturbed. -/
inductive Steady (eq : K → K → Bool) (hash : K → BitVec 32) (valEq : JaclVal → JaclVal → Bool)
    (value : Nat → JaclVal) (watchers : Nat → Watchers) : State K → Prop
  | init : Steady eq hash valEq value watchers (init value watchers)
  | step {s s' : State K} {t : Nat} : Steady eq hash valEq value watchers s →
      Undisturbed t s → StepBy eq hash valEq t s s' → Steady eq hash valEq value watchers s'

section
variable {s s' : State K} {t : Nat} {fr : Frame K} {rest : List (Frame K)} {c₀ c : Cells hL}

theorem Shows.of_eq (h : Shows s c) (hr : s'.root = s.root) (hv : s'.value = s.value)
    (hw : s'.watchers = s.watchers) : Shows s' c where
  maps r := by
    rw [hr]
    exact h.maps r
  value := hv.trans h.value
  watchers atom := by
    rw [hw]
    exact h.watchers atom

theorem Frame.Sound.replacing (h : fr.Sound hL) {seen next : Root K}
    (hpc : fr.pc = .replacing seen next) {u : Update K} {a : AbstractMap hL JaclVal}
    (hu : fr.op.rootUpdate = some u) (ha : seen.Denotes hL a) : next.Denotes hL (u.onMap hL a) := by
  rw [Frame.Sound, hpc] at h
  exact h u a hu ha

theorem Replayed.returned (h : Replayed valEq c₀ s c) : Returned s := by
  intro t fr hfr ref f cur nv hop hpc
  have hs := h.sound t fr hfr
  rw [Frame.Sound, hpc] at hs
  exact hs ref f hop

/-- The calls that are not touched stay sound. -/
theorem sound_of_top (h : ∀ t, ∀ fr ∈ s.tasks t, fr.Sound hL) (ht : s.tasks t = fr :: rest)
    (top : List (Frame K)) (htop : ∀ fr' ∈ top, fr'.Sound hL) :
    ∀ t', ∀ fr' ∈ update s.tasks t (top ++ rest) t', fr'.Sound hL := by
  intro t' fr' hfr
  by_cases htt : t' = t
  · subst htt
    rw [update_self] at hfr
    rcases List.mem_append.mp hfr with hfr | hfr
    · exact htop fr' hfr
    · refine h t' fr' ?_
      rw [ht]
      exact List.mem_cons_of_mem _ hfr
  · rw [update_of_ne htt] at hfr
    exact h t' fr' hfr

/-- A call goes on, and no cell is touched. -/
theorem Replayed.goTo (h : Replayed valEq c₀ s c) (ht : s.tasks t = fr :: rest) {pc : Pc K}
    (hs : ({ fr with pc := pc } : Frame K).Sound hL) :
    Replayed valEq c₀ (s.goTo t fr rest pc) c where
  replays := h.replays
  shows := h.shows.of_eq rfl rfl rfl
  sound := sound_of_top h.sound ht [{ fr with pc := pc }] fun fr' hfr => by
    rw [List.mem_singleton.mp hfr]
    exact hs

/-- A call is finished, and the cells are those after its update. -/
theorem Replayed.finish (h : Replayed valEq c₀ s c) (ht : s.tasks t = fr :: rest) {u : Update K}
    (hl : u.Legal c.value) (htasks : s'.tasks = update s.tasks t rest)
    (hlog : s'.log = s.log ++ [(fr.id, u)]) (hshows : Shows s' (c.apply valEq u)) :
    Replayed valEq c₀ s' (c.apply valEq u) where
  replays := by
    rw [hlog, List.map_append]
    exact h.replays.snoc hl
  shows := hshows
  sound := by
    rw [htasks]
    exact sound_of_top h.sound ht [] fun fr' hfr => absurd hfr List.not_mem_nil

/-- **One step.** -/
theorem StepBy.replayed (hstep : StepBy eq hash valEq t s s') (hun : Undisturbed t s)
    (h : Replayed valEq c₀ s c) : ∃ c', Replayed valEq c₀ s' c' := by
  cases hstep with
  | call op hin =>
    refine ⟨c, h.replays, h.shows.of_eq rfl rfl rfl, fun t' fr' hfr => ?_⟩
    by_cases htt : t' = t
    · subst htt
      rw [State.call_tasks, update_self] at hfr
      rcases List.mem_cons.mp hfr with rfl | hfr
      · trivial
      · exact h.sound t' fr' hfr
    · rw [State.call_tasks, update_of_ne htt] at hfr
      exact h.sound t' fr' hfr
  | @skip fr rest r u ht hpc hr ha hu =>
    obtain ⟨hc, hl⟩ := Op.rootUpdate_spec valEq hr hu c
    have hsame : u.onMap hL (c.maps r) = c.maps r :=
      Op.attempt_spec (h.shows.maps r) hu (hun fr rest ht).1 ha
    rw [hsame, update_eq_self] at hc
    refine ⟨_, h.finish ht hl rfl rfl ?_⟩
    rw [hc]
    exact h.shows.of_eq rfl rfl rfl
  | @peek fr rest r m ht hpc hr ha =>
    have hs : ({ fr with pc := .replacing (s.root r) m } : Frame K).Sound hL := by
      intro u a hu hden
      exact Op.attempt_spec hden hu (hun fr rest ht).1 ha
    have hgo := h.goTo ht hs
    exact ⟨c, hgo.replays, hgo.shows.of_eq rfl rfl rfl, hgo.sound⟩
  | @replaced fr rest r seen m u ht hpc hr hseen hu =>
    obtain ⟨hc, hl⟩ := Op.rootUpdate_spec valEq hr hu c
    have hs : fr.Sound hL := by
      refine h.sound t fr ?_
      rw [ht]
      exact List.mem_cons_self
    have hden : m.Denotes hL (u.onMap hL (c.maps r)) :=
      hs.replacing hpc hu (hseen ▸ h.shows.maps r)
    refine ⟨_, h.finish ht hl rfl rfl ?_⟩
    rw [hc]
    refine ⟨fun q => ?_, h.shows.value, h.shows.watchers⟩
    change (update s.root r m q).Denotes hL (update c.maps r _ q)
    by_cases hq : q = r
    · subst hq
      rw [update_self, update_self]
      exact hden
    · rw [update_of_ne hq, update_of_ne hq]
      exact h.shows.maps q
  | lost ht hpc hr hseen => exact ⟨c, h.goTo ht trivial⟩
  | read ht hpc hop => exact ⟨c, h.goTo ht trivial⟩
  | @applied fr rest ref f cur nv ht hpc hop hf =>
    refine ⟨c, h.goTo ht ?_⟩
    intro ref' f' hop'
    have he : (Op.swap ref f : Op K) = .swap ref' f' := hop.symm.trans hop'
    cases he
    exact hf
  | @committed fr rest ref f cur nv ht hpc hop hcur =>
    refine ⟨_, h.finish (u := .swap ref cur nv) ht ?_ rfl rfl ?_⟩
    · rw [← hcur, h.shows.value]
      rfl
    · refine ⟨h.shows.maps, ?_, h.shows.watchers⟩
      rw [h.shows.value]
      rfl
  | retry ht hpc hop hcur => exact ⟨c, h.goTo ht trivial⟩
  | old ht hpc hop => exact ⟨c, h.goTo ht trivial⟩
  | @store fr rest ref v ht hpc hop =>
    refine ⟨_, h.finish (u := .reset ref v) ht trivial rfl rfl ?_⟩
    refine ⟨h.shows.maps, ?_, h.shows.watchers⟩
    rw [h.shows.value]
    rfl
  | @unlisted fr rest atom u ht hpc ha hw hu =>
    obtain ⟨hc, hl, hempty⟩ := Op.listUpdate_spec valEq ha hu c (h.shows.watchers atom)
    rw [hw, Option.getD_none, ← hempty hw, update_eq_self] at hc
    refine ⟨_, h.finish ht hl rfl rfl ?_⟩
    rw [hc]
    exact h.shows.of_eq rfl rfl rfl
  | list ht hpc ha hw => exact ⟨c, h.goTo ht trivial⟩
  | @relist fr rest atom seen w u ht hpc ha hw hu =>
    have hseen : s.watchers atom = seen := (hun fr rest ht).2 seen atom hpc ha
    obtain ⟨hc, hl, -⟩ := Op.listUpdate_spec valEq ha hu c
      (hseen ▸ h.shows.watchers atom)
    rw [hw, Option.getD_some] at hc
    refine ⟨_, h.finish ht hl rfl rfl ?_⟩
    rw [hc]
    refine ⟨h.shows.maps, h.shows.value, fun a => ?_⟩
    change (update s.watchers atom (some w) a).getD [] = update c.watchers atom w a
    by_cases haa : a = atom
    · subst haa
      rw [update_self, update_self]
      rfl
    · rw [update_of_ne haa, update_of_ne haa]
      exact h.shows.watchers a

end

/-! ### What was added is there -/

theorem lookup_set (a : AbstractMap hL JaclVal) (key k : K) (v : JaclVal) :
    lookup hL (a.apply hL (.set key v)) k = if eq k key = true then v else lookup hL a k := by
  rw [lookup, AbstractMap.apply_set]
  split <;> rfl

theorem Replays.of_snoc {c₀ c : Cells hL} {us : List (Update K)} {u : Update K}
    (h : Replays valEq c₀ (us ++ [u]) c) :
    ∃ c', Replays valEq c₀ us c' ∧ c = c'.apply valEq u := by
  generalize he : us ++ [u] = ws at h
  cases h with
  | nil => exact absurd he (by simp)
  | snoc h hl =>
    obtain ⟨rfl, hu⟩ := List.append_inj' he rfl
    cases hu
    exact ⟨_, h, rfl⟩

/-- A property that an update brings and the later ones keep. -/
theorem Replays.kept {c₀ : Cells hL} {P : Cells hL → Prop} {us₁ : List (Update K)} {u : Update K}
    (hnew : ∀ c : Cells hL, P (c.apply valEq u)) {us₂ : List (Update K)}
    (hkeep : ∀ c : Cells hL, ∀ u' ∈ us₂, P c → P (c.apply valEq u')) {c : Cells hL}
    (h : Replays valEq c₀ (us₁ ++ u :: us₂) c) : P c := by
  induction us₂ using List.reverseRecOn generalizing c with
  | nil =>
    obtain ⟨c', -, rfl⟩ := h.of_snoc
    exact hnew c'
  | append_singleton us₂ u' ih =>
    rw [← List.cons_append, ← List.append_assoc] at h
    obtain ⟨c', h', rfl⟩ := h.of_snoc
    have hP := ih (fun c u hu => hkeep c u (List.mem_append_left _ hu)) h'
    exact hkeep c' u' (List.mem_append_right _ List.mem_cons_self) hP

/-- The globals are those that were set, under equal names. -/
theorem Replays.globals {value : Nat → JaclVal} {watchers : Nat → Watchers} {us : List (Update K)}
    {c : Cells hL} (h : Replays valEq (.start hL value watchers) us c) {name : K} {v : JaclVal}
    (hmem : .globalSet name v ∈ us) :
    ∃ name', .globalSet name' (lookup hL (c.maps .globals) name) ∈ us ∧ eq name' name = true := by
  induction h with
  | nil => exact absurd hmem List.not_mem_nil
  | @snoc us c u h hl ih =>
    have hold : (c.apply valEq u).maps .globals = c.maps .globals →
        .globalSet name v ∈ us → ∃ name', .globalSet name'
          (lookup hL ((c.apply valEq u).maps .globals) name) ∈ us ++ [u] ∧ eq name' name = true := by
      intro hsame hin
      obtain ⟨name', hin', he⟩ := ih hin
      rw [hsame]
      exact ⟨name', List.mem_append_left _ hin', he⟩
    cases u with
    | globalSet n w =>
      have hmaps : (c.apply valEq (.globalSet n w)).maps .globals =
          (c.maps .globals).apply hL (.set n w) := rfl
      rw [hmaps, lookup_set]
      by_cases hn : eq name n = true
      · rw [if_pos hn]
        exact ⟨n, List.mem_append_right _ List.mem_cons_self, hL.symm hn⟩
      · rw [if_neg hn]
        rcases List.mem_append.mp hmem with hin | hin
        · obtain ⟨name', hin', he⟩ := ih hin
          exact ⟨name', List.mem_append_left _ hin', he⟩
        · cases List.mem_singleton.mp hin
          exact absurd (hL.equiv.refl name) hn
    | sigRegister | sigForget | swap | reset | watch | unwatch =>
      rcases List.mem_append.mp hmem with hin | hin
      · exact hold rfl hin
      · exact absurd (List.mem_singleton.mp hin) nofun

theorem Steady.inv {value : Nat → JaclVal} {watchers : Nat → Watchers} {s : State K}
    (hL : Lawful eq hash) (h : Steady eq hash valEq value watchers s) :
    Tickets s ∧ ∃ c, Replayed valEq (.start hL value watchers) s c := by
  induction h with
  | init =>
    refine ⟨tickets_init value watchers, .start hL value watchers, .nil, ⟨fun r => rfl, rfl,
      fun a => rfl⟩, fun t fr hfr => absurd hfr List.not_mem_nil⟩
  | step h hun hstep ih =>
    obtain ⟨ht, c, hc⟩ := ih
    exact ⟨hstep.tickets ht hc.returned, hstep.replayed hun hc⟩

end Jacl.Shared
