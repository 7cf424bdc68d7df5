import Jacl.Macros

/-!
# What an expansion leaves

The walk goes into commands and blocks only.  So an expansion replaces calls of macros and nothing
else (`Expands`), and what it leaves has no call of a macro exactly when the walk comes past none
(`Misses`): none below a node that it does not go into, neither in the program nor in what a
macro makes, and none whose name a macro makes.
-/

namespace Jacl.Macros
open Readers SynWire

/-! ### Calls of macros -/

section
variable (macros : MacroTable)

mutual

/-- No macro is called where the node is evaluated; a quoted node is not. -/
def CallFree : AstNode → Prop
  | .command i headId head args =>
    callee macros (.command i headId head args) = none ∧ CallFree head ∧ EachCallFree args
  | .block _ _ commands => EachCallFree commands
  | .interpString _ segments => EachCallFree segments
  | .around _ .spread expr => CallFree expr
  | .leave _ _ value => CallFree value
  | .shellCmd _ _ _ _ head args => CallFree head ∧ EachCallFree args
  | .ctxDecl _ defaultExpr => CallFree defaultExpr
  | _ => True

def EachCallFree : List AstNode → Prop
  | [] => True
  | n :: ns => CallFree n ∧ EachCallFree ns

end

theorem eachCallFree_iff {ns : List AstNode} :
    EachCallFree macros ns ↔ ∀ n ∈ ns, CallFree macros n := by
  induction ns with
  | nil => simp [EachCallFree]
  | cons n ns ih => simp [EachCallFree, ih]

/-- The walk does not go into the node. -/
def Still : AstNode → Prop
  | .command .. | .block .. => False
  | _ => True

variable (stage : Stage)

mutual

/-- The node that is left in the place of another, where each call that the walk gets to is
replaced by what the macro makes of it. -/
inductive Expands : Path → AstNode → AstNode → Prop
  | still {p a} (h : Still a) : Expands p a a
  | call {p a entry b c} (he : callee macros a = some entry) (hs : stage p entry a = .ok b)
      (h : Expands (0 :: p) b c) : Expands p a c
  | command {p i headId head head' args args'}
      (hn : callee macros (.command i headId head args) = none)
      (hh : Expands (0 :: p) head head') (ha : ExpandsEach p 1 args args') :
      Expands p (.command i headId head args) (.command i headId head' args')
  | block {p i semi commands commands'} (hc : ExpandsEach p 0 commands commands') :
      Expands p (.block i semi commands) (.block i semi commands')

inductive ExpandsEach : Path → Nat → List AstNode → List AstNode → Prop
  | nil {p k} : ExpandsEach p k [] []
  | cons {p k n n' ns ns'} (h : Expands (k :: p) n n') (hs : ExpandsEach p (k + 1) ns ns') :
      ExpandsEach p k (n :: ns) (n' :: ns')

end

/-- The node is a name, or a macro makes it one. -/
inductive Spells : Path → AstNode → List Byte → Prop
  | name {p i name} : Spells p (.litString i name) name
  | call {p a entry b name} (he : callee macros a = some entry) (hs : stage p entry a = .ok b)
      (h : Spells (0 :: p) b name) : Spells p a name

mutual

/-- The walk comes past a call of a macro. -/
inductive Misses : Path → AstNode → Prop
  | still {p a} (h : Still a) (hc : ¬ CallFree macros a) : Misses p a
  | call {p a entry b} (he : callee macros a = some entry) (hs : stage p entry a = .ok b)
      (h : Misses (0 :: p) b) : Misses p a
  /-- The head becomes a macro's name, and is not looked up again. -/
  | named {p i headId head args name entry}
      (hn : callee macros (.command i headId head args) = none)
      (h : Spells macros stage (0 :: p) head name) (hl : macros.lookup name = some entry) :
      Misses p (.command i headId head args)
  | head {p i headId head args} (hn : callee macros (.command i headId head args) = none)
      (h : Misses (0 :: p) head) : Misses p (.command i headId head args)
  | args {p i headId head args} (hn : callee macros (.command i headId head args) = none)
      (h : MissesEach p 1 args) : Misses p (.command i headId head args)
  | block {p i semi commands} (h : MissesEach p 0 commands) : Misses p (.block i semi commands)

inductive MissesEach : Path → Nat → List AstNode → Prop
  | here {p k n ns} (h : Misses (k :: p) n) : MissesEach p k (n :: ns)
  | there {p k n ns} (h : MissesEach p (k + 1) ns) : MissesEach p k (n :: ns)

end

/-- The nodes of a program but the macros' definitions, from the `k`-th on. -/
inductive ExpandsProgram : Nat → List AstNode → List AstNode → Prop
  | nil {k} : ExpandsProgram k [] []
  | defMacro {k n ns ns'} (hn : n.isDefMacro = true) (hs : ExpandsProgram (k + 1) ns ns') :
      ExpandsProgram k (n :: ns) (n :: ns')
  | node {k n n' ns ns'} (hn : n.isDefMacro = false) (h : Expands macros stage [k] n n')
      (hs : ExpandsProgram (k + 1) ns ns') : ExpandsProgram k (n :: ns) (n' :: ns')

def MissesProgram (program : List AstNode) : Prop :=
  ∃ k n, program[k]? = some n ∧ n.isDefMacro = false ∧ Misses macros stage [k] n

end

variable {macros : MacroTable} {stage : Stage} {p : Path} {k : Nat}

/-! ### The walk expands -/

theorem expandCall_expands {again : Path → List ExpandFrame → AstNode → Except ExpandError AstNode}
    (hagain : ∀ p frames a c, again p frames a = .ok c → Expands macros stage p a c)
    {frames : List ExpandFrame} {entry : MacroEntry} {a c : AstNode} {argc : Nat}
    (he : callee macros a = some entry)
    (h : expandCall stage again p frames entry a argc = .ok c) : Expands macros stage p a c := by
  unfold expandCall at h
  split_ifs at h
  split at h
  · cases h
  · cases h
  · next b _ hs => exact .call he hs (hagain _ _ _ _ h)

mutual

theorem walk_expands {again : Path → List ExpandFrame → AstNode → Except ExpandError AstNode}
    (hagain : ∀ p frames a c, again p frames a = .ok c → Expands macros stage p a c)
    (frames : List ExpandFrame) : ∀ (a : AstNode) (p : Path) (c : AstNode),
    walk macros stage again p frames a = .ok c → Expands macros stage p a c
  | .command i headId head args, p, c, h => by
    rw [walk] at h
    split at h
    · next entry he => exact expandCall_expands hagain he h
    · next hn =>
      obtain ⟨head', hh, h⟩ := bind_eq_ok.mp h
      obtain ⟨args', ha, h⟩ := bind_eq_ok.mp h
      cases h
      exact .command hn (walk_expands hagain frames head _ _ hh)
        (walkEach_expands hagain frames args _ _ _ ha)
  | .block i semi commands, p, c, h => by
    rw [walk] at h
    obtain ⟨commands', hc, h⟩ := bind_eq_ok.mp h
    cases h
    exact .block (walkEach_expands hagain frames commands _ _ _ hc)
  | .null, _, _, h | .litInt .., _, _, h | .litFloat .., _, _, h | .litString .., _, _, h
  | .varRef .., _, _, h | .interpString .., _, _, h | .around .., _, _, h | .leave .., _, _, h
  | .cont _, _, _, h | .shellCmd .., _, _, h | .ctxDecl .., _, _, h | .defMacro .., _, _, h
  | .defstruct .., _, _, h | .destructureVec .., _, _, h | .destructureNamed .., _, _, h
  | .other .., _, _, h => by
    cases h
    exact .still trivial

theorem walkEach_expands {again : Path → List ExpandFrame → AstNode → Except ExpandError AstNode}
    (hagain : ∀ p frames a c, again p frames a = .ok c → Expands macros stage p a c)
    (frames : List ExpandFrame) : ∀ (ns : List AstNode) (p : Path) (k : Nat) (ns' : List AstNode),
    walkEach macros stage again p k frames ns = .ok ns' → ExpandsEach macros stage p k ns ns'
  | [], _, _, _, h => by
    cases h
    exact .nil
  | n :: ns, p, k, ns', h => by
    rw [walkEach] at h
    obtain ⟨m, hm, h⟩ := bind_eq_ok.mp h
    obtain ⟨ms, hms, h⟩ := bind_eq_ok.mp h
    cases h
    exact .cons (walk_expands hagain frames n _ _ hm) (walkEach_expands hagain frames ns _ _ _ hms)

end

/-- At every level. -/
theorem expandNode_expands (left : Nat) : ∀ (p : Path) (frames : List ExpandFrame)
    (a c : AstNode), expandNode macros stage left p frames a = .ok c →
    Expands macros stage p a c := by
  induction left with
  | zero =>
    intro p frames a c h
    cases a <;> cases h
    exact .still trivial
  | succ left ih =>
    intro p frames a c h
    exact walk_expands ih frames a p c h

/-! ### What is left -/

mutual

/-- A node is left as it is if no macro is called in it. -/
theorem Expands.eq_of_callFree {p : Path} : ∀ {a c : AstNode}, Expands macros stage p a c →
    CallFree macros a → c = a
  | _, _, .still _, _ => rfl
  | _, _, @Expands.call _ _ _ a _ _ _ he _ _, hf => by
    cases a with
    | command i headId head args =>
      rw [CallFree] at hf
      cases hf.1.symm.trans he
    | _ => cases he
  | _, _, .command _ hh ha, hf => by
    rw [CallFree] at hf
    rw [hh.eq_of_callFree hf.2.1, ha.eq_of_callFree hf.2.2]
  | _, _, .block hc, hf => by
    rw [CallFree] at hf
    rw [hc.eq_of_callFree hf]

theorem ExpandsEach.eq_of_callFree {p : Path} {k : Nat} : ∀ {ns ns' : List AstNode},
    ExpandsEach macros stage p k ns ns' → EachCallFree macros ns → ns' = ns
  | _, _, .nil, _ => rfl
  | _, _, .cons h hs, hf => by
    rw [EachCallFree] at hf
    rw [h.eq_of_callFree hf.1, hs.eq_of_callFree hf.2]

end

/-! ### What the walk comes past -/

theorem not_still_of_callee {a : AstNode} {entry : MacroEntry} (he : callee macros a = some entry) :
    ¬ Still a := by
  intro hs
  cases a with
  | command i headId head args => exact hs
  | _ => cases he

/-- A call is replaced by what comes of what the macro makes. -/
theorem Expands.of_call {a c : AstNode} {entry : MacroEntry} (h : Expands macros stage p a c)
    (he : callee macros a = some entry) :
    ∃ b, stage p entry a = .ok b ∧ Expands macros stage (0 :: p) b c := by
  cases h with
  | still hs => exact absurd hs (not_still_of_callee he)
  | call he' hs h =>
    obtain rfl := Option.some.inj (he.symm.trans he')
    exact ⟨_, hs, h⟩
  | command hn _ _ => cases hn.symm.trans he
  | block _ => cases he

theorem Spells.expands {a c : AstNode} {name : List Byte} (hs : Spells macros stage p a name)
    (h : Expands macros stage p a c) : ∃ i, c = .litString i name := by
  induction hs with
  | name =>
    cases h with
    | still _ => exact ⟨_, rfl⟩
    | call he _ _ => cases he
  | call he hb _ ih =>
    obtain ⟨b, hb', h⟩ := h.of_call he
    obtain rfl := Except.ok.inj (hb.symm.trans hb')
    exact ih h

theorem Expands.spells {i : Info} {name : List Byte} : ∀ {p : Path} {a c : AstNode},
    Expands macros stage p a c → c = .litString i name → Spells macros stage p a name
  | _, _, _, .still _, h => by
    rw [h]
    exact .name
  | _, _, _, .call he hs hb, h => .call he hs (hb.spells h)

/-- After its head is expanded, a command calls a macro if its head became the name of one. -/
theorem callee_command_iff {i : Info} {headId : Byte} {head head' : AstNode} {args : List AstNode}
    {entry : MacroEntry} (hh : Expands macros stage (0 :: p) head head') :
    callee macros (.command i headId head' args) = some entry ↔
      ∃ name, Spells macros stage (0 :: p) head name ∧ macros.lookup name = some entry := by
  constructor
  · intro he
    cases head' with
    | litString j name => exact ⟨name, hh.spells rfl, he⟩
    | _ => cases he
  · rintro ⟨name, hs, hl⟩
    obtain ⟨j, rfl⟩ := hs.expands hh
    exact hl

mutual

/-- **A call of a macro is left exactly where the walk comes past one.** -/
theorem misses_iff : ∀ {p : Path} {a c : AstNode}, Expands macros stage p a c →
    (Misses macros stage p a ↔ ¬ CallFree macros c)
  | p, a, _, .still hs => by
    constructor
    · intro h
      cases h with
      | still _ hc => exact hc
      | call he _ _ => exact absurd hs (not_still_of_callee he)
      | named _ _ _ => exact hs.elim
      | head _ _ => exact hs.elim
      | args _ _ => exact hs.elim
      | block _ => exact hs.elim
    · exact .still hs
  | p, a, c, .call he hs h => by
    constructor
    · intro hm
      cases hm with
      | still hstill _ => exact absurd hstill (not_still_of_callee he)
      | call he' hs' hm =>
        obtain rfl := Option.some.inj (he.symm.trans he')
        obtain rfl := Except.ok.inj (hs.symm.trans hs')
        exact (misses_iff h).mp hm
      | named hn _ _ => cases hn.symm.trans he
      | head hn _ => cases hn.symm.trans he
      | args hn _ => cases hn.symm.trans he
      | block _ => cases he
    · exact fun hc => .call he hs ((misses_iff h).mpr hc)
  | p, _, _, @Expands.command _ _ _ i headId _ _ args args' hn hh ha => by
    rw [CallFree]
    constructor
    · rintro hm ⟨hnone, hhead, hargs⟩
      cases hm with
      | still hs _ => exact hs
      | call he _ _ => cases hn.symm.trans he
      | named _ hs hl =>
        have he : callee macros (.command i headId _ args') = some _ :=
          (callee_command_iff hh).mpr ⟨_, hs, hl⟩
        cases he.symm.trans hnone
      | head _ h => exact (misses_iff hh).mp h hhead
      | args _ h => exact (missesEach_iff ha).mp h hargs
    · intro hc
      by_contra hm
      refine hc ⟨?_, ?_, ?_⟩
      · by_contra hne
        obtain ⟨entry, he⟩ := Option.ne_none_iff_exists'.mp hne
        obtain ⟨name, hs, hl⟩ := (callee_command_iff hh).mp he
        exact hm (.named hn hs hl)
      · by_contra hhead
        exact hm (.head hn ((misses_iff hh).mpr hhead))
      · by_contra hargs
        exact hm (.args hn ((missesEach_iff ha).mpr hargs))
  | p, _, _, .block hcs => by
    rw [CallFree]
    constructor
    · intro hm
      cases hm with
      | still hs _ => exact hs.elim
      | call he _ _ => cases he
      | block h => exact (missesEach_iff hcs).mp h
    · exact fun hc => .block ((missesEach_iff hcs).mpr hc)

theorem missesEach_iff : ∀ {p : Path} {k : Nat} {ns ns' : List AstNode},
    ExpandsEach macros stage p k ns ns' →
    (MissesEach macros stage p k ns ↔ ¬ EachCallFree macros ns')
  | _, _, _, _, .nil => by
    constructor
    · intro h
      cases h
    · exact fun h => absurd trivial h
  | _, _, _, _, @ExpandsEach.cons _ _ _ _ _ n' _ _ h hs => by
    rw [EachCallFree]
    constructor
    · rintro hm ⟨hf, hfs⟩
      cases hm with
      | here hm => exact (misses_iff h).mp hm hf
      | there hm => exact (missesEach_iff hs).mp hm hfs
    · intro hc
      by_cases hf : CallFree macros n'
      · exact .there ((missesEach_iff hs).mpr fun hfs => hc ⟨hf, hfs⟩)
      · exact .here ((misses_iff h).mpr hf)

end

/-! ### Programs -/

theorem expandEach_expands : ∀ {ns ns' : List AstNode} {k : Nat},
    expandEach macros stage k ns = .ok ns' → ExpandsProgram macros stage k ns ns'
  | [], _, _, h => by
    cases h
    exact .nil
  | n :: ns, ns', k, h => by
    rw [expandEach] at h
    obtain ⟨m, hm, h⟩ := bind_eq_ok.mp h
    obtain ⟨ms, hms, h⟩ := bind_eq_ok.mp h
    cases h
    unfold expandStatement at hm
    split_ifs at hm with hn
    · cases hm
      exact .defMacro hn (expandEach_expands hms)
    · exact .node (by simpa using hn) (expandNode_expands _ _ _ _ _ hm) (expandEach_expands hms)

theorem callFree_of_isDefMacro {n : AstNode} (hn : n.isDefMacro = true) : CallFree macros n := by
  cases n with
  | defMacro i name params variadic body => exact trivial
  | _ => cases hn

theorem missesProgram_iff {ns ns' : List AstNode} (h : ExpandsProgram macros stage k ns ns') :
    (∃ j n, ns[j]? = some n ∧ n.isDefMacro = false ∧ Misses macros stage [k + j] n) ↔
      ¬ ∀ c ∈ ns', CallFree macros c := by
  induction h with
  | nil => simp
  | @defMacro k n ns ns' hn _ ih =>
    rw [List.forall_mem_cons, not_and, ← ih]
    constructor
    · rintro ⟨j, m, hj, hm, hmiss⟩ _
      cases j with
      | zero =>
        obtain rfl := Option.some.inj hj
        cases hn.symm.trans hm
      | succ j => exact ⟨j, m, hj, hm, by rwa [Nat.add_right_comm, Nat.add_assoc]⟩
    · intro h
      obtain ⟨j, m, hj, hm, hmiss⟩ := h (callFree_of_isDefMacro hn)
      exact ⟨j + 1, m, hj, hm, by rwa [← Nat.add_assoc, Nat.add_right_comm]⟩
  | @node k n n' ns ns' hn hexp _ ih =>
    rw [List.forall_mem_cons, not_and, ← ih]
    constructor
    · rintro ⟨j, m, hj, hm, hmiss⟩ hfree
      cases j with
      | zero =>
        obtain rfl := Option.some.inj hj
        exact absurd hfree ((misses_iff hexp).mp hmiss)
      | succ j => exact ⟨j, m, hj, hm, by rwa [Nat.add_right_comm, Nat.add_assoc]⟩
    · intro h
      by_cases hfree : CallFree macros n'
      · obtain ⟨j, m, hj, hm, hmiss⟩ := h hfree
        exact ⟨j + 1, m, hj, hm, by rwa [← Nat.add_assoc, Nat.add_right_comm]⟩
      · exact ⟨0, n, rfl, hn, (misses_iff hexp).mpr hfree⟩

/-- A call of a macro, with as many arguments as it takes. -/
def Calls (macros : MacroTable) (entry : MacroEntry) (a : AstNode) : Prop :=
  ∃ i headId head args, a = .command i headId head args ∧ callee macros a = some entry ∧
    entry.takes args.length = true

/-- What a macro makes is always a call of a macro again. -/
def Endless (macros : MacroTable) (stage : Stage) : Prop :=
  ∀ p entry a, Calls macros entry a → ∃ b entry', stage p entry a = .ok b ∧ Calls macros entry' b

/-- Calls that never end come to the depth error. -/
theorem expandNode_of_endless (h : Endless macros stage) (left : Nat) :
    ∀ (p : Path) (frames : List ExpandFrame) (a : AstNode) (entry : MacroEntry),
    Calls macros entry a → ∃ frames' pos,
      expandNode macros stage left p frames a = .error (setError frames' depthMessage pos) := by
  induction left with
  | zero =>
    rintro p frames _ entry ⟨i, headId, head, args, rfl, -⟩
    exact ⟨frames, i.start, rfl⟩
  | succ left ih =>
    rintro p frames a entry hcall
    obtain ⟨b, entry', hb, hcall'⟩ := h p entry a hcall
    obtain ⟨i, headId, head, args, rfl, he, htakes⟩ := hcall
    obtain ⟨frames', pos, hagain⟩ := ih (0 :: p)
      (pushFrame frames ⟨entry.name, i.start.line, i.start.column⟩) b entry' hcall'
    refine ⟨frames', pos, ?_⟩
    obtain ⟨i', headId', head', args', rfl, -⟩ := hcall'
    rw [expandNode, walk, he]
    simp only
    rw [expandCall, if_pos htakes, hb]
    exact hagain

/-- What is promised of an expansion that succeeds. -/
structure ExpandsWell (macros : MacroTable) (stage : Stage) (program out : List AstNode) : Prop where
  /-- No call of a macro is left. -/
  complete : ∀ c ∈ out, CallFree macros c
  /-- Only calls are replaced. -/
  replaced : ExpandsProgram macros stage 0 program out
  quoted : ∀ {p i type child c}, type = .quote ∨ type = .syntaxQuote →
    Expands macros stage p (.around i type child) c → c = .around i type child
  unchanged : ∀ {p a c}, Expands macros stage p a c → CallFree macros a → c = a
  /-- Expansions that do not end are an error. -/
  ends : Endless macros stage → ∀ left p frames a entry, Calls macros entry a → ∃ frames' pos,
    expandNode macros stage left p frames a = .error (setError frames' depthMessage pos)

theorem Expands.eq_of_still {a c : AstNode} (h : Expands macros stage p a c) (hs : Still a) :
    c = a := by
  cases h with
  | still _ => rfl
  | call he _ _ => exact absurd hs (not_still_of_callee he)
  | command _ _ _ => exact hs.elim
  | block _ => exact hs.elim

/-- **Expansion is complete exactly when the walk comes past no call of a macro**, and it leaves
the rest of the program alone. -/
theorem expandsWell_iff {prelude : List MacroEntry} {program out : List AstNode}
    {macros₀ : MacroTable}
    (h : astExpandMacros stage prelude program macros₀ = .ok (out, macros)) :
    ExpandsWell macros stage program out ↔ ¬ MissesProgram macros stage program := by
  obtain ⟨t, -, h⟩ := bind_eq_ok.mp h
  obtain ⟨ns, hns, h⟩ := bind_eq_ok.mp h
  cases h
  have hexp := expandEach_expands hns
  have hiff := missesProgram_iff hexp
  simp only [Nat.zero_add] at hiff
  constructor
  · intro hw hm
    exact hiff.mp hm hw.complete
  · intro hm
    refine ⟨not_not.mp fun hc => hm (hiff.mpr hc), hexp, fun ht hq => hq.eq_of_still trivial,
      fun hq => hq.eq_of_callFree, fun hend left => expandNode_of_endless hend left⟩

/-! ### One macro -/

def noInfo : Info := ⟨0, 0, 0, false, false⟩

def noMacros : MacroTable := ⟨[], Nat.zero_le _⟩

/-- The program `defmacro m {} {…}`, and a statement. -/
def oneMacro (statement : AstNode) : List AstNode :=
  [.defMacro noInfo (text "m") [] false .null, statement]

def callM : AstNode := .command noInfo 0 (.litString noInfo (text "m")) []

/-- Every macro makes the literal 1. -/
def one : Stage := fun _ _ _ => .ok (.litInt noInfo 1 none)

theorem expandsWell_callM : ∃ out macros,
    astExpandMacros one [] (oneMacro callM) noMacros = .ok (out, macros) ∧
      ExpandsWell macros one (oneMacro callM) out := by
  have hsome := (rfl : astExpandMacros one [] (oneMacro callM) noMacros = .ok (_, _))
  refine ⟨_, _, hsome, (expandsWell_iff hsome).mpr ?_⟩
  rintro ⟨k, n, hk, hn, hm⟩
  obtain _ | _ | k := k
  · cases hk
    cases hn
  · cases hk
    cases hm with
    | still hs _ => exact hs
    | call he hs h =>
      cases hs
      cases h with
      | still _ hc => exact hc trivial
      | call he _ _ => cases he
    | named hn _ _ => cases hn
    | head hn _ => cases hn
    | args hn _ => cases hn
  · cases hk

/-- In `return [m]` the call is left. -/
theorem not_expandsWell : ¬ ∀ (stage : Stage) (prelude : List MacroEntry) (program out : List AstNode)
    (macros₀ macros : MacroTable), astExpandMacros stage prelude program macros₀ = .ok (out, macros) →
      ExpandsWell macros stage program out := by
  intro h
  have hw := h one [] (oneMacro (.leave noInfo .ret callM)) _ noMacros _ rfl
  have hfree : CallFree _ callM := hw.complete (.leave noInfo .ret callM) (.tail _ (.head _))
  cases hfree.1

end Jacl.Macros
