import Jacl.RegexClosure
import Jacl.RegexCompiles
import Jacl.RegexText

/-!
# The search finds the first and longest match

`Searching` is what holds before each byte: the threads are what the starts so far have come to,
each instruction with the first start it can have, and the match so far is the best of those that
have ended.
-/

namespace Jacl.Regex

open FlowGraphs

variable {w : List Byte} {p : Program} {s q : Nat}

/-! ### Moves -/

/-- The next byte takes a thread from one instruction to another. -/
def Eats (w : List Byte) (code : Code) (pc i pc' : Nat) : Prop :=
  ∃ ins b, code[pc]? = some ins ∧ w[i]? = some b ∧ ins.op.admits b = true ∧ pc' = ins.out

/-- The context at a position. -/
def contextOf (w : List Byte) (i : Nat) : Context := contextAt (prevByte w i) w[i]?

theorem contextAt_passes (prev cur : Option Byte) (kind : Anchor) :
    (contextAt prev cur).passes kind = kind.holds prev cur := by
  cases kind with
  | bol => cases prev <;> simp [Context.passes, contextAt, Anchor.holds]
  | eol => cases cur <;> simp [Context.passes, contextAt, Anchor.holds]
  | word => rfl
  | nonWord =>
    simp only [Context.passes, contextAt, Anchor.holds]
    cases prev.any isWordChar <;> cases cur.any isWordChar <;> rfl

abbrev Reach (w : List Byte) (p : Program) : Nat × Nat → Nat × Nat → Prop :=
  Relation.ReflTransGen ((codeGraph w p.code).Step p.Exit)

theorem step_of_moves {pc i j : Nat} {ins : Inst} (hins : p.code[pc]? = some ins) (e : Bool)
    (hedge : ins.hasEdge e) (hmove : ins.op.Moves w i j) (hop : ins.op ≠ .matched) :
    (codeGraph w p.code).Step p.Exit (pc, i) (ins.target e, j) := by
  refine ⟨e, (codeGraph_moves hins _ _ _).mpr ⟨hedge, hmove⟩, ?_, (codeGraph_target hins e).symm⟩
  rintro ⟨-, ins', hins', hop'⟩
  rw [hins] at hins'
  cases hins'
  exact hop hop'

theorem step_of_epsilon {pc pc' i : Nat} (h : pc' ∈ epsilons p.code (contextOf w i) pc) :
    (codeGraph w p.code).Step p.Exit (pc, i) (pc', i) := by
  rcases hins : p.code[pc]? with _ | ins
  · simp [epsilons, hins] at h
  have h' : pc' ∈ ins.epsilon (contextOf w i) := by simpa [epsilons, hins] using h
  obtain ⟨op, s, s'⟩ := ins
  cases op with
  | split =>
    rcases List.mem_pair.mp h' with rfl | rfl
    · exact step_of_moves hins false (by rintro ⟨⟩) rfl (by rintro ⟨⟩)
    · exact step_of_moves hins true (fun _ => rfl) rfl (by rintro ⟨⟩)
  | jmp =>
    rw [List.mem_singleton.mp h']
    exact step_of_moves hins false (by rintro ⟨⟩) rfl (by rintro ⟨⟩)
  | save slot =>
    rw [List.mem_singleton.mp h']
    exact step_of_moves hins false (by rintro ⟨⟩) rfl (by rintro ⟨⟩)
  | anchor kind =>
    change pc' ∈ (if (contextOf w i).passes kind then [s] else []) at h'
    rw [contextOf, contextAt_passes] at h'
    split_ifs at h' with hholds
    · rw [List.mem_singleton.mp h']
      exact step_of_moves hins false (by rintro ⟨⟩) ⟨hholds, rfl⟩ (by rintro ⟨⟩)
    · cases h'
  | literal byte => cases h'
  | range lo hi => cases h'
  | cls ranges => cases h'
  | any => cases h'
  | anyAll => cases h'
  | matched => cases h'

theorem op_moves_of_admits {op : Op} {i : Nat} {b : Byte} (hb : w[i]? = some b)
    (h : op.admits b = true) : op.Moves w i (i + 1) := by
  cases op with
  | split => cases h
  | jmp => cases h
  | save slot => cases h
  | anchor kind => cases h
  | matched => cases h
  | literal byte => exact ⟨b, hb, h, rfl⟩
  | range lo hi => exact ⟨b, hb, h, rfl⟩
  | cls ranges => exact ⟨b, hb, h, rfl⟩
  | any => exact ⟨b, hb, h, rfl⟩
  | anyAll => exact ⟨b, hb, h, rfl⟩

theorem step_of_eats {pc pc' i : Nat} (h : Eats w p.code pc i pc') :
    (codeGraph w p.code).Step p.Exit (pc, i) (pc', i + 1) := by
  obtain ⟨ins, b, hins, hb, hadm, rfl⟩ := h
  refine step_of_moves hins false nofun (op_moves_of_admits hb hadm) fun hop => ?_
  rw [hop] at hadm
  cases hadm

/-- A move is one of the two. -/
theorem step_cases {pc pc' i j : Nat} (h : (codeGraph w p.code).Step p.Exit (pc, i) (pc', j)) :
    j = i ∧ pc' ∈ epsilons p.code (contextOf w i) pc ∨ j = i + 1 ∧ Eats w p.code pc i pc' := by
  obtain ⟨e, hm, hexit, htarget⟩ := h
  dsimp only at hm hexit htarget
  obtain ⟨ins, hins, hedge, hmove⟩ := hm
  rw [codeGraph_target hins] at htarget
  have heps : epsilons p.code (contextOf w i) pc = ins.epsilon (contextOf w i) := by
    simp [epsilons, hins]
  rw [heps]
  obtain ⟨op, s, s'⟩ := ins
  cases op with
  | split =>
    obtain rfl : i = j := hmove
    refine .inl ⟨rfl, List.mem_pair.mpr ?_⟩
    cases e with
    | false => exact .inl htarget
    | true => exact .inr htarget
  | jmp =>
    cases e with
    | true => cases hedge rfl
    | false =>
      obtain rfl : i = j := hmove
      exact .inl ⟨rfl, List.mem_singleton.mpr htarget⟩
  | save slot =>
    cases e with
    | true => cases hedge rfl
    | false =>
      obtain rfl : i = j := hmove
      exact .inl ⟨rfl, List.mem_singleton.mpr htarget⟩
  | anchor kind =>
    cases e with
    | true => cases hedge rfl
    | false =>
      obtain ⟨hholds, rfl⟩ := hmove
      refine .inl ⟨rfl, ?_⟩
      change pc' ∈ (if (contextOf w i).passes kind then [s] else [])
      rw [contextOf, contextAt_passes, if_pos hholds]
      exact List.mem_singleton.mpr htarget
  | matched =>
    cases e with
    | true => cases hedge rfl
    | false => exact absurd ⟨rfl, _, hins, rfl⟩ hexit
  | literal byte =>
    obtain ⟨b, hb, hadm, rfl⟩ := hmove
    cases e with
    | true => cases hedge rfl
    | false => exact .inr ⟨rfl, _, b, hins, hb, hadm, htarget⟩
  | range lo hi =>
    obtain ⟨b, hb, hadm, rfl⟩ := hmove
    cases e with
    | true => cases hedge rfl
    | false => exact .inr ⟨rfl, _, b, hins, hb, hadm, htarget⟩
  | cls ranges =>
    obtain ⟨b, hb, hadm, rfl⟩ := hmove
    cases e with
    | true => cases hedge rfl
    | false => exact .inr ⟨rfl, _, b, hins, hb, hadm, htarget⟩
  | any =>
    obtain ⟨b, hb, hadm, rfl⟩ := hmove
    cases e with
    | true => cases hedge rfl
    | false => exact .inr ⟨rfl, _, b, hins, hb, hadm, htarget⟩
  | anyAll =>
    obtain ⟨b, hb, hadm, rfl⟩ := hmove
    cases e with
    | true => cases hedge rfl
    | false => exact .inr ⟨rfl, _, b, hins, hb, hadm, htarget⟩

/-! ### Paths -/

theorem Reach.le {a b : Nat × Nat} (h : Reach w p a b) : a.2 ≤ b.2 := by
  induction h with
  | refl => exact Nat.le_refl _
  | tail _ hstep ih =>
    rcases step_cases hstep with ⟨heq, -⟩ | ⟨heq, -⟩
    · rw [heq]
      exact ih
    · rw [heq]
      exact Nat.le_succ_of_le ih

theorem reach_of_epsReach {pc pc' : Nat} (h : EpsReach p.code (contextOf w q) pc pc') :
    Reach w p (pc, q) (pc', q) := by
  induction h with
  | refl => exact .refl
  | tail _ hstep ih => exact ih.tail (step_of_epsilon hstep)

theorem epsReach_of_reach {a b : Nat × Nat} (h : Reach w p a b) (ha : a.2 = q) (hb : b.2 = q) :
    EpsReach p.code (contextOf w q) a.1 b.1 := by
  induction h using Relation.ReflTransGen.head_induction_on with
  | refl => exact .refl
  | @head a c hstep hrest ih =>
    obtain ⟨pc, i⟩ := a
    obtain ⟨pc', k⟩ := c
    obtain rfl : i = q := ha
    have hle := Reach.le hrest
    rcases step_cases hstep with ⟨rfl, heps⟩ | ⟨rfl, -⟩
    · exact .head heps (ih rfl)
    · dsimp only at hle
      omega

/-- A path past a byte has a move along it. -/
theorem Reach.crosses {a b : Nat × Nat} (h : Reach w p a b) (ha : a.2 ≤ q) (hb : q < b.2) :
    ∃ pc pc', Reach w p a (pc, q) ∧ Eats w p.code pc q pc' ∧ Reach w p (pc', q + 1) b := by
  induction h using Relation.ReflTransGen.head_induction_on with
  | refl => omega
  | @head a c hstep hrest ih =>
    obtain ⟨pc, i⟩ := a
    obtain ⟨pc', k⟩ := c
    dsimp only at ha
    rcases step_cases hstep with ⟨rfl, -⟩ | ⟨rfl, heats⟩
    · obtain ⟨x, y, h1, h2, h3⟩ := ih ha
      exact ⟨x, y, .head hstep h1, h2, h3⟩
    · rcases Nat.eq_or_lt_of_le ha with rfl | hlt
      · exact ⟨pc, pc', .refl, heats, hrest⟩
      · obtain ⟨x, y, h1, h2, h3⟩ := ih hlt
        exact ⟨x, y, .head hstep h1, h2, h3⟩

/-- A thread that began at `i` and comes to `pc` with the byte before `q`. -/
def Arrives (w : List Byte) (p : Program) (i pc q : Nat) : Prop :=
  ∃ q' pc', q = q' + 1 ∧ Reach w p (p.start, i) (pc', q') ∧ Eats w p.code pc' q' pc

theorem Arrives.reach {i pc : Nat} (h : Arrives w p i pc q) : Reach w p (p.start, i) (pc, q) := by
  obtain ⟨q', pc', rfl, hreach, heats⟩ := h
  exact hreach.tail (step_of_eats heats)

/-- The program matches from `i` to `j`. -/
def MatchAt (w : List Byte) (p : Program) (i j : Nat) : Prop :=
  ∃ pc, isMatch p.code pc = true ∧ Reach w p (p.start, i) (pc, j)

theorem isMatch_iff {code : Code} {pc : Nat} :
    isMatch code pc = true ↔ ∃ ins, code[pc]? = some ins ∧ ins.op = .matched := by
  cases h : code[pc]? with
  | none => simp [isMatch, h]
  | some ins => simp [isMatch, h]

theorem MatchAt.le {i j : Nat} (h : MatchAt w p i j) : i ≤ j := by
  obtain ⟨pc, -, hreach⟩ := h
  exact hreach.le

/-- `best` is the first of the matches in `K`, and of those that begin there the longest or the
shortest. -/
def Optimal (greedy : Bool) (K : Nat → Nat → Prop) : Option Found → Prop
  | none => ∀ i j, ¬ K i j
  | some m => K m.start m.stop ∧ ∀ i j, K i j →
      m.start < i ∨ m.start = i ∧ if greedy then j ≤ m.stop else m.stop ≤ j

theorem Optimal.le {greedy : Bool} {K : Nat → Nat → Prop} {best : Option Found}
    (h : Optimal greedy K best) {i j : Nat} (hK : K i j) : ∃ m ∈ best, m.start ≤ i := by
  cases best with
  | none => exact absurd hK (h i j)
  | some m =>
    refine ⟨m, rfl, ?_⟩
    rcases h.2 i j hK with hlt | ⟨heq, -⟩
    · exact Nat.le_of_lt hlt
    · exact Nat.le_of_eq heq

/-- Matches that begin later than the best change nothing. -/
theorem Optimal.mono {greedy : Bool} {K K' : Nat → Nat → Prop} {best : Option Found}
    (h : Optimal greedy K best) (hsub : ∀ i j, K i j → K' i j)
    (hlate : ∀ i j, K' i j → K i j ∨ ∃ m ∈ best, m.start < i) : Optimal greedy K' best := by
  cases best with
  | none =>
    intro i j hK
    rcases hlate i j hK with hK | ⟨m, hm, -⟩
    · exact h i j hK
    · cases hm
  | some m =>
    refine ⟨hsub _ _ h.1, fun i j hK => ?_⟩
    rcases hlate i j hK with hK | ⟨m', hm', hlt⟩
    · exact h.2 i j hK
    · cases hm'
      exact .inl hlt

/-- What holds before the byte at `q`, in a search from `s`. -/
structure Searching (w : List Byte) (p : Program) (s q : Nat) (pending : List Thread)
    (best : Option Found) : Prop where
  sound : ∀ t ∈ pending, s ≤ t.start ∧ t.start < q ∧ Arrives w p t.start t.pc q
  sorted : pending.Pairwise fun t u => t.start ≤ u.start
  complete : ∀ i pc, s ≤ i → i < q → Arrives w p i pc q → (∀ m ∈ best, i ≤ m.start) →
    ∃ t ∈ pending, t.pc = pc ∧ t.start ≤ i
  best : Optimal p.greedyMatch (fun i j => s ≤ i ∧ j < q ∧ MatchAt w p i j) best

/-- The threads at a position. -/
structure Expanded (w : List Byte) (p : Program) (s q : Nat) (best : Option Found)
    (threads : List Thread) : Prop where
  sound : ∀ t ∈ threads, Waits p.code t.pc ∧ s ≤ t.start ∧ t.start ≤ q ∧
    Reach w p (p.start, t.start) (t.pc, q)
  sorted : threads.Pairwise fun t u => t.start ≤ u.start
  complete : ∀ i pc, s ≤ i → i ≤ q → (∀ m ∈ best, i ≤ m.start) →
    Reach w p (p.start, i) (pc, q) → Waits p.code pc → ∃ t ∈ threads, t.pc = pc ∧ t.start ≤ i

variable {pending threads : List Thread} {best : Option Found}

theorem mem_adding {t : Thread} (h : t ∈ adding p q pending best) :
    t ∈ pending ∨ t = ⟨p.start, q, none⟩ := by
  rcases List.mem_append.mp h with h | h
  · exact .inl h
  · split_ifs at h
    · exact .inr (List.mem_singleton.mp h)
    · cases h

namespace Searching

theorem expanded (h : Searching w p s q pending best) (hs : s ≤ q) :
    Expanded w p s q best (expand p (contextOf w q) q pending best) := by
  have hsorted : (adding p q pending best).Pairwise fun t u => t.start ≤ u.start := by
    refine List.pairwise_append.mpr ⟨h.sorted, ?_, fun t ht u hu => ?_⟩
    · split_ifs
      · exact List.pairwise_singleton _ _
      · exact .nil
    · split_ifs at hu
      · rw [List.mem_singleton.mp hu]
        exact Nat.le_of_lt (h.sound t ht).2.1
      · cases hu
  have hexp : Expands p.code (contextOf w q) (adding p q pending best)
    (expand p (contextOf w q) q pending best) := expand_expands hsorted
  refine ⟨fun t ht => ?_, hexp.sorted, fun i pc hsi hiq hbest hreach hw => ?_⟩
  · obtain ⟨hw, u, hu, hstart, heps⟩ := hexp.sound t ht
    refine ⟨hw, ?_⟩
    rw [hstart]
    rcases mem_adding hu with hu | rfl
    · obtain ⟨h1, h2, h3⟩ := h.sound u hu
      exact ⟨h1, Nat.le_of_lt h2, h3.reach.trans (reach_of_epsReach heps)⟩
    · exact ⟨hs, Nat.le_refl _, reach_of_epsReach heps⟩
  · rcases Nat.eq_or_lt_of_le hiq with rfl | hlt
    · have hnone : best = none := by
        cases best with
        | none => rfl
        | some m =>
          have h1 := hbest m rfl
          obtain ⟨-, h2, h3⟩ := h.best.1
          exact absurd (Nat.lt_of_le_of_lt h3.le h2) (Nat.not_lt.mpr h1)
      subst hnone
      refine hexp.complete ⟨p.start, i, none⟩ ?_ pc (epsReach_of_reach hreach rfl rfl) hw
      exact List.mem_append_right _ (List.mem_singleton.mpr rfl)
    · obtain ⟨q', rfl⟩ := Nat.exists_eq_succ_of_ne_zero (Nat.ne_of_gt (Nat.zero_lt_of_lt hlt))
      obtain ⟨pc0, pc1, h1, h2, h3⟩ := hreach.crosses (Nat.le_of_lt_succ hlt) (Nat.lt_succ_self q')
      obtain ⟨t, ht, rfl, hle⟩ := h.complete i pc1 hsi hlt ⟨q', pc0, rfl, h1, h2⟩ hbest
      obtain ⟨u, hu, hupc, hule⟩ := hexp.complete t (List.mem_append_left _ ht) pc
        (epsReach_of_reach h3 rfl rfl) hw
      exact ⟨u, hu, hupc, Nat.le_trans hule hle⟩

end Searching

namespace Expanded

end Expanded

/-! ### The first bytes -/

abbrev SuccReach (code : Code) : Nat → Nat → Prop :=
  Relation.ReflTransGen fun pc pc' => pc' ∈ (code[pc]?.map Inst.successors).getD []

/-- What the first bytes and the empty match are said to be takes in all that they are. -/
structure Program.Filtered (p : Program) : Prop where
  bytes : ∀ pc ins b, SuccReach p.code p.start pc → p.code[pc]? = some ins →
    ins.op.admits b = true → p.firstByteSet b = true
  empty : ∀ pc, SuccReach p.code p.start pc → isMatch p.code pc = true → p.canMatchEmpty = true

theorem succReach_of_epsReach {code : Code} {ctx : Context} {pc pc' : Nat}
    (h : EpsReach code ctx pc pc') : SuccReach code pc pc' := by
  refine Relation.ReflTransGen.mono (fun a b hab => ?_) _ _ h
  rcases hins : code[a]? with _ | ⟨op, s, s'⟩
  · simp [epsilons, hins] at hab
  · have hab' : b ∈ (Inst.mk op s s').epsilon ctx := by simpa [epsilons, hins] using hab
    change b ∈ (Inst.mk op s s').successors
    cases op with
    | split => exact hab'
    | jmp => exact hab'
    | save slot => exact hab'
    | anchor kind =>
      change b ∈ (if ctx.passes kind then [s] else []) at hab'
      split_ifs at hab'
      · exact hab'
      · cases hab'
    | literal byte => cases hab'
    | range lo hi => cases hab'
    | cls ranges => cases hab'
    | any => cases hab'
    | anyAll => cases hab'
    | matched => cases hab'

/-- A byte that no match begins with. -/
theorem Searching.skip (h : Searching w p s q pending best) (hf : p.Filtered) {b : Byte}
    (hb : w[q]? = some b) (hskips : skips p pending best b = true) :
    Searching w p s (q + 1) pending best := by
  simp only [skips, Bool.and_eq_true, Bool.not_eq_true', List.isEmpty_iff,
    Option.isNone_iff_eq_none] at hskips
  obtain ⟨⟨⟨rfl, rfl⟩, hempty⟩, hfirst⟩ := hskips
  -- Nothing that begins by `q` gets past the byte there.
  have hstuck : ∀ i pc0 pc1, s ≤ i → i ≤ q → Reach w p (p.start, i) (pc0, q) →
      ¬ Eats w p.code pc0 q pc1 := by
    rintro i pc0 pc1 hsi hiq hreach ⟨ins, c, hins, hc, hadm, -⟩
    obtain rfl : b = c := Option.some.inj (hb.symm.trans hc)
    rcases Nat.eq_or_lt_of_le hiq with rfl | hlt
    · have hsucc := succReach_of_epsReach (epsReach_of_reach hreach rfl rfl)
      rw [hf.bytes pc0 ins b hsucc hins hadm] at hfirst
      cases hfirst
    · obtain ⟨q', rfl⟩ := Nat.exists_eq_succ_of_ne_zero (Nat.ne_of_gt (Nat.zero_lt_of_lt hlt))
      obtain ⟨x, y, h1, h2, -⟩ := hreach.crosses (Nat.le_of_lt_succ hlt) (Nat.lt_succ_self q')
      obtain ⟨t, ht, -⟩ := h.complete i y hsi hlt ⟨q', x, rfl, h1, h2⟩ (by simp)
      cases ht
  refine ⟨(by simp), .nil, fun i pc hsi hiq harr _ => ?_, ?_⟩
  · obtain ⟨q', pc', hq, hreach, heats⟩ := harr
    obtain rfl : q = q' := Nat.succ.inj hq
    exact absurd heats (hstuck i pc' pc hsi (Nat.le_of_lt_succ hiq) hreach)
  · rintro i j ⟨h1, h2, h3⟩
    rcases Nat.eq_or_lt_of_le (Nat.le_of_lt_succ h2) with rfl | hlt
    · obtain ⟨pc, hmatch, hreach⟩ := h3
      rcases Nat.eq_or_lt_of_le (Reach.le hreach) with heq | hlt
      · obtain rfl : i = j := heq
        have hsucc := succReach_of_epsReach (epsReach_of_reach hreach rfl rfl)
        rw [hf.empty pc hsucc hmatch] at hempty
        cases hempty
      · obtain ⟨q', rfl⟩ := Nat.exists_eq_succ_of_ne_zero (Nat.ne_of_gt (Nat.zero_lt_of_lt hlt))
        obtain ⟨x, y, h4, h5, -⟩ := hreach.crosses (Nat.le_of_lt_succ hlt) (Nat.lt_succ_self q')
        obtain ⟨t, ht, -⟩ := h.complete i y h1 hlt ⟨q', x, rfl, h4, h5⟩ (by simp)
        cases ht
    · exact h.best i j ⟨h1, hlt, h3⟩

/-! ### The whole search -/

variable {code : Code} {order : List Nat} {qh fuel : Nat}

theorem mem_enqueue {pcs : List Nat} {x : Nat} : x ∈ enqueue order pcs ↔ x ∈ order ∨ x ∈ pcs := by
  induction pcs generalizing order with
  | nil => simp [enqueue]
  | cons pc pcs ih =>
    change x ∈ enqueue (if pc ∈ order then order else order ++ [pc]) pcs ↔ _
    rw [ih, List.mem_cons]
    split_ifs with h
    · constructor
      · rintro (hx | hx)
        · exact .inl hx
        · exact .inr (.inr hx)
      · rintro (hx | rfl | hx)
        · exact .inl hx
        · exact .inl h
        · exact .inr hx
    · rw [List.mem_append, List.mem_singleton, or_assoc]

theorem nodup_enqueue {pcs : List Nat} (h : order.Nodup) : (enqueue order pcs).Nodup := by
  induction pcs generalizing order with
  | nil => exact h
  | cons pc pcs ih =>
    change (enqueue (if pc ∈ order then order else order ++ [pc]) pcs).Nodup
    split_ifs with hmem
    · exact ih h
    · exact ih (List.nodup_append.mpr ⟨h, List.nodup_singleton pc, fun a ha b hb => by
        rw [List.mem_singleton.mp hb]
        rintro rfl
        exact hmem ha⟩)

theorem enqueue_prefix (order pcs : List Nat) : order <+: enqueue order pcs := by
  induction pcs generalizing order with
  | nil => exact List.prefix_refl order
  | cons pc pcs ih =>
    change order <+: enqueue (if pc ∈ order then order else order ++ [pc]) pcs
    split_ifs
    · exact ih order
    · exact (List.prefix_append order [pc]).trans (ih _)

/-- What has been walked through has its successors in the queue. -/
structure Walked (code : Code) (qh : Nat) (order : List Nat) : Prop where
  nodup : order.Nodup
  lt : ∀ pc ∈ order, pc < code.length
  closed : ∀ k < qh, ∀ pc ∈ order[k]?, ∀ pc' ∈ (code[pc]?.map Inst.successors).getD [], pc' ∈ order

theorem walk_closed (htargets : ∀ pc < code.length,
      ∀ pc' ∈ (code[pc]?.map Inst.successors).getD [], pc' < code.length)
    (h : Walked code qh order) (hqh : qh ≤ order.length) (hfuel : code.length < fuel + qh) :
    (∀ x ∈ order, x ∈ walk code fuel qh order) ∧ ∀ x ∈ walk code fuel qh order,
      ∀ x' ∈ (code[x]?.map Inst.successors).getD [], x' ∈ walk code fuel qh order := by
  have hlen : ∀ {order : List Nat}, order.Nodup → (∀ pc ∈ order, pc < code.length) →
      order.length ≤ code.length := by
    intro order hn hlt
    have hsub : order.toFinset ⊆ Finset.range code.length := by
      intro x hx
      exact Finset.mem_range.mpr (hlt x (List.mem_toFinset.mp hx))
    have := Finset.card_le_card hsub
    rwa [List.toFinset_card_of_nodup hn, Finset.card_range] at this
  induction fuel generalizing qh order with
  | zero =>
    have := hlen h.nodup h.lt
    omega
  | succ fuel ih =>
    rw [walk]
    rcases hx : order[qh]? with _ | pc
    · refine ⟨fun x hx => hx, fun x hmem x' hx' => ?_⟩
      obtain ⟨k, hk⟩ := List.mem_iff_getElem?.mp hmem
      have hklt := (List.getElem?_eq_some_iff.mp hk).1
      have hge := List.getElem?_eq_none_iff.mp hx
      exact h.closed k (Nat.lt_of_lt_of_le hklt hge) x hk x' hx'
    · have hqlt := (List.getElem?_eq_some_iff.mp hx).1
      have hpc := List.mem_of_getElem? hx
      obtain ⟨suffix, hsuffix⟩ := enqueue_prefix order ((code[pc]?.map Inst.successors).getD [])
      have hnext : Walked code (qh + 1)
          (enqueue order ((code[pc]?.map Inst.successors).getD [])) := by
        refine ⟨nodup_enqueue h.nodup, fun x hx => ?_, fun k hk x hx' x' hsucc => ?_⟩
        · rcases mem_enqueue.mp hx with hx | hx
          · exact h.lt x hx
          · exact htargets pc (h.lt pc hpc) x hx
        · rw [mem_enqueue]
          rw [← hsuffix, List.getElem?_append_left (by omega)] at hx'
          rcases Nat.eq_or_lt_of_le (Nat.le_of_lt_succ hk) with rfl | hlt
          · obtain rfl : pc = x := Option.some.inj (hx.symm.trans hx')
            exact .inr hsucc
          · exact .inl (h.closed k hlt x hx' x' hsucc)
      have hle : qh + 1 ≤ (enqueue order ((code[pc]?.map Inst.successors).getD [])).length := by
        rw [← hsuffix, List.length_append]
        omega
      obtain ⟨h1, h2⟩ := ih hnext hle (by omega)
      exact ⟨fun x hx => h1 x (mem_enqueue.mpr (.inl hx)), h2⟩

/-- The walk comes to all that one gets to without a byte. -/
theorem mem_firstReached {start pc : Nat} {ins : Inst} (hstart : start < code.length)
    (htargets : ∀ pc < code.length,
      ∀ pc' ∈ (code[pc]?.map Inst.successors).getD [], pc' < code.length)
    (h : SuccReach code start pc) (hins : code[pc]? = some ins) : ins ∈ firstReached code start := by
  have hwalked : Walked code 0 [start] := by
    refine ⟨List.nodup_singleton start, fun x hx => ?_, nofun⟩
    rwa [List.mem_singleton.mp hx]
  obtain ⟨hroot, hclosed⟩ := walk_closed htargets hwalked (Nat.zero_le _) (Nat.lt_succ_self _)
  have hpc : pc ∈ walk code (code.length + 1) 0 [start] := by
    clear hins
    induction h with
    | refl => exact hroot start (List.mem_singleton.mpr rfl)
    | tail _ hstep ih => exact hclosed _ ih _ hstep
  exact List.mem_filterMap.mpr ⟨pc, hpc, hins⟩

end Jacl.Regex
