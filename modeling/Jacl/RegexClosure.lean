import Jacl.RegexExec

/-!
# Threads without a byte

`_nfa_addstate` is a search in depth: from a thread it comes to all instructions that one gets to
without a byte, save those that are seen already.  When threads are added in the order of their
starts, each instruction gets the first start it can have.
-/

namespace Jacl.Regex

variable {code : Code} {ctx : Context} {l l' : ThreadList} {t : Thread} {ts new : List Thread}

/-! ### Where one gets without a byte -/

def Inst.epsilon (ctx : Context) (ins : Inst) : List Nat :=
  match ins.op with
  | .split => [ins.out, ins.out1]
  | .jmp => [ins.out]
  | .save _ => [ins.out]
  | .anchor kind => if ctx.passes kind then [ins.out] else []
  | _ => []

def epsilons (code : Code) (ctx : Context) (pc : Nat) : List Nat :=
  (code[pc]?.map (Inst.epsilon ctx)).getD []

/-- An instruction at which a thread waits for a byte, or has matched. -/
def Op.waits : Op → Bool
  | .split | .jmp | .save _ | .anchor _ => false
  | _ => true

def Waits (code : Code) (pc : Nat) : Prop := ∃ ins, code[pc]? = some ins ∧ ins.op.waits = true

abbrev EpsReach (code : Code) (ctx : Context) : Nat → Nat → Prop :=
  Relation.ReflTransGen fun pc pc' => pc' ∈ epsilons code ctx pc

/-! ### Visits -/

def ThreadList.mark (l : ThreadList) (pc : Nat) : ThreadList := { l with seen := pc :: l.seen }

/-- From `l` to `l'` the threads `ts` have been added, which has made the threads `new`. -/
structure Visits (code : Code) (ctx : Context) (ts : List Thread) (l l' : ThreadList)
    (new : List Thread) : Prop where
  mono : ∀ pc ∈ l.seen, pc ∈ l'.seen
  roots : ∀ t ∈ ts, t.pc ∈ l'.seen
  closed : ∀ pc ∈ l'.seen, pc ∉ l.seen → ∀ pc' ∈ epsilons code ctx pc, pc' ∈ l'.seen
  threads : l'.threads = l.threads ++ new
  sound : ∀ u ∈ new, Waits code u.pc ∧ ∃ t ∈ ts, u.start = t.start ∧ EpsReach code ctx t.pc u.pc
  complete : ∀ pc ∈ l'.seen, pc ∉ l.seen → Waits code pc → ∃ u ∈ new, u.pc = pc

namespace Visits

theorem nil (l : ThreadList) : Visits code ctx [] l l [] where
  mono _ h := h
  roots := nofun
  closed _ h hn := absurd h hn
  threads := (List.append_nil _).symm
  sound := nofun
  complete _ h hn := absurd h hn

theorem append {l'' : ThreadList} {ts' new' : List Thread} (h : Visits code ctx ts l l' new)
    (h' : Visits code ctx ts' l' l'' new') : Visits code ctx (ts ++ ts') l l'' (new ++ new') where
  mono pc hpc := h'.mono pc (h.mono pc hpc)
  roots t ht := by
    rcases List.mem_append.mp ht with ht | ht
    · exact h'.mono _ (h.roots t ht)
    · exact h'.roots t ht
  closed pc hpc hn pc' hpc' := by
    by_cases hmem : pc ∈ l'.seen
    · exact h'.mono _ (h.closed pc hmem hn pc' hpc')
    · exact h'.closed pc hpc hmem pc' hpc'
  threads := by rw [h'.threads, h.threads, List.append_assoc]
  sound u hu := by
    rcases List.mem_append.mp hu with hu | hu
    · obtain ⟨hw, t, ht, hreach⟩ := h.sound u hu
      exact ⟨hw, t, List.mem_append_left _ ht, hreach⟩
    · obtain ⟨hw, t, ht, hreach⟩ := h'.sound u hu
      exact ⟨hw, t, List.mem_append_right _ ht, hreach⟩
  complete pc hpc hn hw := by
    by_cases hmem : pc ∈ l'.seen
    · obtain ⟨u, hu, heq⟩ := h.complete pc hmem hn hw
      exact ⟨u, List.mem_append_left _ hu, heq⟩
    · obtain ⟨u, hu, heq⟩ := h'.complete pc hpc hmem hw
      exact ⟨u, List.mem_append_right _ hu, heq⟩

theorem seen (h : t.pc ∈ l.seen) : Visits code ctx [t] l l [] where
  mono _ hpc := hpc
  roots u hu := by rwa [List.mem_singleton.mp hu]
  closed _ hpc hn := absurd hpc hn
  threads := (List.append_nil _).symm
  sound := nofun
  complete _ hpc hn := absurd hpc hn

/-- An instruction that leads on. -/
theorem node (hts : ∀ u ∈ ts, u.start = t.start) (heps : epsilons code ctx t.pc = ts.map Thread.pc)
    (hw : ¬ Waits code t.pc) (h : Visits code ctx ts (l.mark t.pc) l' new) :
    Visits code ctx [t] l l' new where
  mono pc hpc := h.mono pc (List.mem_cons_of_mem _ hpc)
  roots u hu := by
    rw [List.mem_singleton.mp hu]
    exact h.mono _ List.mem_cons_self
  closed pc hpc hn pc' hpc' := by
    by_cases heq : pc = t.pc
    · subst heq
      rw [heps] at hpc'
      obtain ⟨u, hu, rfl⟩ := List.mem_map.mp hpc'
      exact h.roots u hu
    · refine h.closed pc hpc (fun hmem => ?_) pc' hpc'
      rcases List.mem_cons.mp hmem with hmem | hmem
      · exact heq hmem
      · exact hn hmem
  threads := h.threads
  sound u hu := by
    obtain ⟨huw, t', ht', hstart, hreach⟩ := h.sound u hu
    refine ⟨huw, t, List.mem_singleton.mpr rfl, hstart.trans (hts t' ht'), .head ?_ hreach⟩
    rw [heps]
    exact List.mem_map_of_mem ht'
  complete pc hpc hn hpw := by
    refine h.complete pc hpc (fun hmem => ?_) hpw
    rcases List.mem_cons.mp hmem with rfl | hmem
    · exact hw hpw
    · exact hn hmem

/-- An instruction that leads nowhere. -/
theorem stuck (heps : epsilons code ctx t.pc = []) (hw : ¬ Waits code t.pc) :
    Visits code ctx [t] l (l.mark t.pc) [] := by
  have hnil : Visits code ctx [] (l.mark t.pc) (l.mark t.pc) [] := .nil _
  refine hnil.node ?_ ?_ hw
  · exact nofun
  · exact heps

theorem waiting (heps : epsilons code ctx t.pc = []) (hw : Waits code t.pc) :
    Visits code ctx [t] l { l.mark t.pc with threads := l.threads ++ [t] } [t] where
  mono pc hpc := List.mem_cons_of_mem _ hpc
  roots u hu := by
    rw [List.mem_singleton.mp hu]
    exact List.mem_cons_self
  closed pc hpc hn pc' hpc' := by
    rcases List.mem_cons.mp hpc with rfl | hpc
    · rw [heps] at hpc'
      cases hpc'
    · exact absurd hpc hn
  threads := rfl
  sound u hu := by
    rw [List.mem_singleton.mp hu]
    exact ⟨hw, t, List.mem_singleton.mpr rfl, rfl, .refl⟩
  complete pc hpc hn _ := by
    rcases List.mem_cons.mp hpc with rfl | hpc
    · exact ⟨t, List.mem_singleton.mpr rfl, rfl⟩
    · exact absurd hpc hn

end Visits

/-! ### The recursion comes to its end -/

/-- How many instructions are not seen. -/
def unseen (code : Code) (l : ThreadList) : Nat :=
  ((Finset.range code.length).filter (· ∉ l.seen)).card

theorem unseen_le_of_mono (h : ∀ pc ∈ l.seen, pc ∈ l'.seen) : unseen code l' ≤ unseen code l := by
  refine Finset.card_le_card fun pc hpc => ?_
  rw [Finset.mem_filter] at hpc ⊢
  exact ⟨hpc.1, fun hmem => hpc.2 (h pc hmem)⟩

theorem unseen_mark_lt {pc : Nat} {ins : Inst} (hins : code[pc]? = some ins) (hn : pc ∉ l.seen) :
    unseen code (l.mark pc) < unseen code l := by
  have hlt := (List.getElem?_eq_some_iff.mp hins).1
  refine Finset.card_lt_card ⟨fun x hx => ?_, fun hsub => ?_⟩
  · rw [Finset.mem_filter] at hx ⊢
    exact ⟨hx.1, fun hmem => hx.2 (List.mem_cons_of_mem _ hmem)⟩
  · have hmem := hsub (Finset.mem_filter.mpr ⟨Finset.mem_range.mpr hlt, hn⟩)
    exact (Finset.mem_filter.mp hmem).2 List.mem_cons_self

theorem unseen_le (l : ThreadList) : unseen code l ≤ code.length := by
  refine (Finset.card_filter_le _ _).trans ?_
  rw [Finset.card_range]

/-- One call of `_nfa_addstate`. -/
theorem addState_visits (nCaptures sp : Nat) {fuel : Nat} (h : unseen code l < fuel) :
    ∃ new, Visits code ctx [t] l (addState code ctx nCaptures sp fuel t l) new := by
  induction fuel generalizing t l with
  | zero => exact absurd h (Nat.not_lt_zero _)
  | succ fuel ih =>
    rw [addState]
    split_ifs with hseen
    · exact ⟨[], .seen hseen⟩
    rcases hins : code[t.pc]? with _ | ins
    · refine ⟨[], Visits.stuck ?_ ?_⟩
      · simp [epsilons, hins]
      · rintro ⟨ins, hins', -⟩
        rw [hins] at hins'
        cases hins'
    have hlt : unseen code (l.mark t.pc) < fuel := by
      have := unseen_mark_lt hins hseen
      omega
    have heps : epsilons code ctx t.pc = ins.epsilon ctx := by
      simp [epsilons, hins]
    have hwait : Waits code t.pc ↔ ins.op.waits = true := by
      simp [Waits, hins]
    obtain ⟨op, s, s'⟩ := ins
    -- The instructions that lead on differ in what they lead to.
    have hone : ∀ (captures : Option Captures), epsilons code ctx t.pc = [s] →
        op.waits = false → ∃ new, Visits code ctx [t] l
          (addState code ctx nCaptures sp fuel ⟨s, t.start, captures⟩ (l.mark t.pc)) new := by
      intro captures heq hno
      obtain ⟨new, hv⟩ := ih (t := ⟨s, t.start, captures⟩) hlt
      refine ⟨new, hv.node ?_ ?_ ?_⟩
      · intro u hu
        rw [List.mem_singleton.mp hu]
      · exact heq
      · rw [hwait, hno]
        exact nofun
    have hstop : epsilons code ctx t.pc = [] → op.waits = true → ∃ new, Visits code ctx [t] l
        { l.mark t.pc with threads := l.threads ++ [t] } new :=
      fun heq hyes => ⟨[t], .waiting heq (hwait.mpr hyes)⟩
    cases op with
    | split =>
      obtain ⟨new, hv⟩ := ih (t := { t with pc := s }) hlt
      obtain ⟨new', hv'⟩ := ih (t := { t with pc := s' })
        (Nat.lt_of_le_of_lt (unseen_le_of_mono hv.mono) hlt)
      refine ⟨new ++ new', (hv.append hv').node ?_ ?_ ?_⟩
      · intro u hu
        rcases List.mem_pair.mp hu with rfl | rfl
        all_goals rfl
      · exact heps
      · rw [hwait]
        exact nofun
    | jmp => exact hone t.captures heps rfl
    | save slot => exact hone _ heps rfl
    | anchor kind =>
      dsimp only
      split_ifs with hpass
      · refine hone t.captures ?_ rfl
        rw [heps]
        exact if_pos hpass
      · refine ⟨[], Visits.stuck ?_ ?_⟩
        · rw [heps]
          exact if_neg hpass
        · rw [hwait]
          exact nofun
    | literal byte => exact hstop heps rfl
    | range lo hi => exact hstop heps rfl
    | cls ranges => exact hstop heps rfl
    | any => exact hstop heps rfl
    | anyAll => exact hstop heps rfl
    | matched => exact hstop heps rfl

/-! ### Threads in the order of their starts -/

/-- The threads that come of `ts`. -/
structure Expands (code : Code) (ctx : Context) (ts threads : List Thread) : Prop where
  sound : ∀ u ∈ threads,
    Waits code u.pc ∧ ∃ t ∈ ts, u.start = t.start ∧ EpsReach code ctx t.pc u.pc
  sorted : threads.Pairwise fun u v => u.start ≤ v.start
  complete : ∀ t ∈ ts, ∀ pc, EpsReach code ctx t.pc pc → Waits code pc →
    ∃ u ∈ threads, u.pc = pc ∧ u.start ≤ t.start

theorem foldl_addState_expands (nCaptures sp : Nat) {ts : List Thread}
    (hts : ts.Pairwise fun u v => u.start ≤ v.start) :
    Expands code ctx ts
      (ts.foldl (fun l t => addState code ctx nCaptures sp (code.length + 1) t l) ⟨[], []⟩).threads := by
  suffices h : ∃ l, ts.foldl (fun l t => addState code ctx nCaptures sp (code.length + 1) t l) ⟨[], []⟩ = l ∧
      (∀ pc ∈ l.seen, ∀ pc' ∈ epsilons code ctx pc, pc' ∈ l.seen) ∧
      (∀ pc ∈ l.seen, Waits code pc → ∃ u ∈ l.threads, u.pc = pc) ∧
      Expands code ctx ts l.threads by
    obtain ⟨l, rfl, -, -, h⟩ := h
    exact h
  induction ts using List.reverseRecOn with
  | nil => exact ⟨_, rfl, nofun, nofun, nofun, .nil, nofun⟩
  | append_singleton ts t ih =>
    obtain ⟨hsorted, -, hle⟩ := List.pairwise_append.mp hts
    obtain ⟨l, heq, hclosed, hwaiting, hexp⟩ := ih hsorted
    rw [List.foldl_append, heq]
    obtain ⟨new, hv⟩ : ∃ new, Visits code ctx [t] l
        (addState code ctx nCaptures sp (code.length + 1) t l) new :=
      addState_visits nCaptures sp (Nat.lt_succ_of_le (unseen_le l))
    refine ⟨_, rfl, ?_⟩
    rw [List.foldl_cons, List.foldl_nil]
    generalize addState code ctx nCaptures sp (code.length + 1) t l = l' at hv
    have hclosed' : ∀ pc ∈ l'.seen, ∀ pc' ∈ epsilons code ctx pc, pc' ∈ l'.seen := by
      intro pc hpc pc' hpc'
      by_cases hmem : pc ∈ l.seen
      · exact hv.mono _ (hclosed pc hmem pc' hpc')
      · exact hv.closed pc hpc hmem pc' hpc'
    have hwaiting' : ∀ pc ∈ l'.seen, Waits code pc → ∃ u ∈ l'.threads, u.pc = pc := by
      intro pc hpc hw
      rw [hv.threads]
      by_cases hmem : pc ∈ l.seen
      · obtain ⟨u, hu, hupc⟩ := hwaiting pc hmem hw
        exact ⟨u, List.mem_append_left _ hu, hupc⟩
      · obtain ⟨u, hu, hupc⟩ := hv.complete pc hpc hmem hw
        exact ⟨u, List.mem_append_right _ hu, hupc⟩
    have hnew : ∀ u ∈ new, u.start = t.start := by
      intro u hu
      obtain ⟨-, t', ht', hstart, -⟩ := hv.sound u hu
      rw [hstart, List.mem_singleton.mp ht']
    have hold : ∀ u ∈ l.threads, u.start ≤ t.start := by
      intro u hu
      obtain ⟨-, t', ht', hstart, -⟩ := hexp.sound u hu
      rw [hstart]
      exact hle t' ht' t (List.mem_singleton.mpr rfl)
    refine ⟨hclosed', hwaiting', fun u hu => ?_, ?_, fun t' ht' pc hreach hw => ?_⟩
    · rw [hv.threads] at hu
      rcases List.mem_append.mp hu with hu | hu
      · obtain ⟨hw, t', ht', hreach⟩ := hexp.sound u hu
        exact ⟨hw, t', List.mem_append_left _ ht', hreach⟩
      · obtain ⟨hw, t', ht', hreach⟩ := hv.sound u hu
        exact ⟨hw, t', List.mem_append_right _ ht', hreach⟩
    · rw [hv.threads, List.pairwise_append]
      refine ⟨hexp.sorted, List.pairwise_of_forall_mem_list fun u hu v hv => ?_, fun u hu v hv => ?_⟩
      · rw [hnew u hu, hnew v hv]
      · rw [hnew v hv]
        exact hold u hu
    · rcases List.mem_append.mp ht' with ht' | ht'
      · obtain ⟨u, hu, hupc, hustart⟩ := hexp.complete t' ht' pc hreach hw
        rw [hv.threads]
        exact ⟨u, List.mem_append_left _ hu, hupc, hustart⟩
      · obtain rfl := List.mem_singleton.mp ht'
        have hpc : pc ∈ l'.seen := by
          clear hw
          induction hreach with
          | refl => exact hv.roots t' (List.mem_singleton.mpr rfl)
          | tail _ hstep ihr => exact hclosed' _ ihr _ hstep
        obtain ⟨u, hu, hupc⟩ := hwaiting' pc hpc hw
        refine ⟨u, hu, hupc, ?_⟩
        rw [hv.threads] at hu
        rcases List.mem_append.mp hu with hu | hu
        · exact hold u hu
        · exact Nat.le_of_eq (hnew u hu)

/-- The threads to add at `sp`. -/
def adding (p : Program) (sp : Nat) (pending : List Thread) (best : Option Found) : List Thread :=
  pending ++ if best.isNone then [⟨p.start, sp, none⟩] else []

theorem expand_expands {p : Program} {sp : Nat} {pending : List Thread} {best : Option Found}
    (h : (adding p sp pending best).Pairwise fun u v => u.start ≤ v.start) :
    Expands p.code ctx (adding p sp pending best) (expand p ctx sp pending best) := by
  have heq : expand p ctx sp pending best = ((adding p sp pending best).foldl
      (fun l t => addState p.code ctx p.nCaptures sp (p.code.length + 1) t l) ⟨[], []⟩).threads := by
    rw [adding, List.foldl_append]
    cases best with
    | none => rfl
    | some m => rfl
  rw [heq]
  exact foldl_addState_expands _ _ h

end Jacl.Regex
