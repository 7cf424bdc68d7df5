import Jacl.RegexLeftmost

/-!
# The first-byte prefilter

The skip loop passes over a byte that no match begins with.  A search that looks at the byte
instead expands the start, finds no match among its threads, consumes the byte with none of them,
and is where the skip loop is.  So a search with the prefilter comes to what it comes to without,
and to the same cursor.
-/

namespace Jacl.Regex

/-! ### Every compiled program is filtered -/

mutual

/-- The tree with each negated class written as the class it is compiled to. -/
def Ast.positive : Ast → Ast
  | .charClass ranges true icase => .charClass (complementRanges (classRanges ranges icase)) false false
  | .concat children => .concat (positiveAll children)
  | .alt children => .alt (positiveAll children)
  | .repeated child min max greedy => .repeated child.positive min max greedy
  | .group child index => .group child.positive index
  | a => a

def positiveAll : List Ast → List Ast
  | [] => []
  | a :: as => a.positive :: positiveAll as

end

theorem positiveAll_length (as : List Ast) : (positiveAll as).length = as.length := by
  induction as with
  | nil => rfl
  | cons a as ih => exact congrArg (· + 1) ih

mutual

theorem positive_built : ∀ a : Ast, a.Built → a.positive.Built
  | .literal _ _, h => h
  | .dot _, h => h
  | .anchor _, h => h
  | .charClass _ true _, _ => trivial
  | .charClass _ false _, h => h
  | .concat children, h => positiveAll_built children h
  | .alt children, h => ⟨(positiveAll_length children).symm ▸ h.1, positiveAll_built children h.2⟩
  | .repeated child _ _ _, h => ⟨h.1, positive_built child h.2⟩
  | .group child _, h => positive_built child h

theorem positiveAll_built : ∀ as : List Ast, builtAll as → builtAll (positiveAll as)
  | [], h => h
  | a :: as, h => ⟨positive_built a h.1, positiveAll_built as h.2⟩

end

mutual

theorem positive_negatedIn (Q : List Range → Prop) : ∀ a : Ast, a.positive.NegatedIn Q
  | .literal _ _ => trivial
  | .dot _ => trivial
  | .anchor _ => trivial
  | .charClass _ true _ => fun h => nomatch h
  | .charClass _ false _ => fun h => nomatch h
  | .concat children => positiveAll_negatedIn Q children
  | .alt children => positiveAll_negatedIn Q children
  | .repeated child _ _ _ => positive_negatedIn Q child
  | .group child _ => positive_negatedIn Q child

theorem positiveAll_negatedIn (Q : List Range → Prop) : ∀ as : List Ast, negatedInAll Q (positiveAll as)
  | [] => trivial
  | a :: as => ⟨positive_negatedIn Q a, positiveAll_negatedIn Q as⟩

end

mutual

/-- It compiles to the same code. -/
theorem compileNode_positive : ∀ a : Ast, compileNode a.positive = compileNode a
  | .literal _ _ => rfl
  | .dot _ => rfl
  | .anchor _ => rfl
  | .charClass _ true _ => by
    rw [Ast.positive, compileNode, compileNode]
    rfl
  | .charClass _ false _ => rfl
  | .concat children => by
    rw [Ast.positive, compileNode, compileNode, compileNodes_positive children]
  | .alt children => by
    rw [Ast.positive, compileNode, compileNode, compileNodes_positive children]
  | .repeated child _ _ _ => by
    rw [Ast.positive, compileNode, compileNode, compileNode_positive child]
  | .group child _ => by
    rw [Ast.positive, compileNode, compileNode, compileNode_positive child]

theorem compileNodes_positive : ∀ as : List Ast, compileNodes (positiveAll as) = compileNodes as
  | [] => rfl
  | a :: as => by
    rw [positiveAll, compileNodes, compileNodes, compileNode_positive a, compileNodes_positive as]

end

/-- **Whatever its classes, a tree compiles to a fragment that leads as its classes are compiled.** -/
theorem compileNode_realizes_positive {w : List Byte} {a : Ast} (h : a.Built) :
    Gen.Realizes w (compileNode a) (a.positive.Matches w) := by
  have := @compileNode_realizes w a.positive (positive_built a h) (positive_negatedIn _ a)
  rwa [compileNode_positive a] at this

theorem nfaParse_filtered {pattern : List Byte} {ast : Ast} (h : nfaParse pattern = .ok ast) :
    (nfaCompile ast).Filtered :=
  @nfaCompile_filtered [] _ _ (nfaCompile_sound (compileNode_realizes_positive (nfaParse_built h)))

/-! ### A step where the prefilter would skip -/

/-- The program without its prefilter: a pattern that may match the empty string has none. -/
def Program.unfiltered (p : Program) : Program := { p with canMatchEmpty := true }

variable {p : Program} {cur : Cursor} {fuel : Nat} {pending : List Thread} {best : Option Found}

theorem settle_unfiltered : settle p.unfiltered cur pending best = cur.refill := by
  simp [settle, Program.unfiltered]

/-- From the start alone there is no match, and no thread takes a byte that is not a first byte. -/
theorem expand_start (hf : p.Filtered) (ctx : Context) (sp : Nat) (hempty : p.canMatchEmpty = false) :
    scan p sp (expand p ctx sp [] none) none = none ∧
      ∀ b, p.firstByteSet b = false → consume p.code b (expand p ctx sp [] none) = [] := by
  have hexp : Expands p.code ctx (adding p sp [] none) (expand p ctx sp [] none) :=
    expand_expands (List.pairwise_singleton _ _)
  have hreach : ∀ t ∈ expand p ctx sp [] none, SuccReach p.code p.start t.pc := by
    intro t ht
    obtain ⟨-, u, hu, -, hpath⟩ := hexp.sound t ht
    obtain rfl : u = ⟨p.start, sp, none⟩ := List.mem_singleton.mp hu
    exact succReach_of_epsReach hpath
  constructor
  · have hnone : (expand p ctx sp [] none).filter (isMatch p.code ·.pc) = [] := by
      rw [List.filter_eq_nil_iff]
      intro t ht hmatch
      rw [hf.empty t.pc (hreach t ht) hmatch] at hempty
      cases hempty
    rw [scan, hnone]
    rfl
  · intro b hb
    rw [consume, List.filterMap_eq_nil_iff]
    intro t ht
    cases hins : p.code[t.pc]? with
    | none => rfl
    | some ins =>
      have hadm : ins.op.admits b = false := by
        by_contra hne
        rw [hf.bytes t.pc ins b (hreach t ht) hins (Bool.not_eq_false _ ▸ hne)] at hb
        cases hb
      simp [hadm]

/-! ### Fuel -/

/-- The search, from a cursor that is settled. -/
def searchFrom (p : Program) (fuel : Nat) (settled : Cursor × Bool) (pending : List Thread)
    (best : Option Found) : Option Found × Cursor :=
  let next := if settled.2 then none else settled.1.chunk.head?
  let threads := expand p (contextAt settled.1.prev next) settled.1.sp pending best
  let best := scan p settled.1.sp threads best
  match next with
  | none => (best, settled.1)
  | some b =>
    let pending := consume p.code b threads
    if best.isSome && pending.isEmpty then (best, settled.1)
    else search p fuel (settled.1.advance b) pending best

theorem search_succ (p : Program) (fuel : Nat) (cur : Cursor) (pending : List Thread)
    (best : Option Found) :
    search p (fuel + 1) cur pending best = searchFrom p fuel (settle p cur pending best) pending best :=
  rfl

theorem size_refill (cur : Cursor) : cur.refill.1.size = cur.size := by
  rw [Cursor.refill]
  split_ifs with hchunk
  · cases hlater : cur.later with
    | nil => simp [nextChunk, Cursor.size, hchunk, hlater]
    | cons chunk later => simp [nextChunk, Cursor.size, hchunk, hlater]
  · rfl

theorem size_advance {b : Byte} {rest : List Byte} (h : cur.chunk = b :: rest) :
    (cur.advance b).size + 1 = cur.size := by
  simp only [Cursor.size, Cursor.advance, h, List.tail_cons, List.length_cons]
  omega

theorem refill_chunk (h : cur.refill.2 = false) : cur.refill.1.chunk ≠ [] := by
  rw [Cursor.refill] at h ⊢
  split_ifs at h ⊢ with hchunk
  · exact fun hnil => by simp_all
  · exact hchunk

/-- Two searches that agree from all smaller cursors agree from a settled one. -/
theorem searchFrom_congr {q : Program} {fuel' : Nat} {settled : Cursor × Bool}
    (hcode : q.code = p.code ∧ q.start = p.start ∧ q.nCaptures = p.nCaptures ∧
      q.greedyMatch = p.greedyMatch)
    (hnext : settled.2 = false → ∀ b rest pending best, settled.1.chunk = b :: rest →
      search p fuel (settled.1.advance b) pending best =
        search q fuel' (settled.1.advance b) pending best) :
    searchFrom p fuel settled pending best = searchFrom q fuel' settled pending best := by
  obtain ⟨h1, h2, h3, h4⟩ := hcode
  have hexpand : ∀ ctx sp pending best, expand q ctx sp pending best = expand p ctx sp pending best := by
    intro ctx sp pending best
    simp only [expand, h1, h2, h3]
  have hscan : ∀ sp threads best, scan q sp threads best = scan p sp threads best := by
    intro sp threads best
    simp only [scan, h1, h4]
  simp only [searchFrom, hexpand, hscan, h1]
  cases hend : settled.2 with
  | true => rfl
  | false =>
    cases hchunk : settled.1.chunk with
    | nil => rfl
    | cons b rest =>
      simp only [Bool.false_eq_true, if_false, List.head?_cons]
      split_ifs
      · rfl
      · exact hnext hend b rest _ _ hchunk

/-- Without the prefilter, more fuel than there are bytes makes no difference. -/
theorem search_fuel {fuel' : Nat} (h : cur.size < fuel) (h' : cur.size < fuel') :
    search p.unfiltered fuel cur pending best = search p.unfiltered fuel' cur pending best := by
  induction fuel generalizing cur pending best fuel' with
  | zero => exact absurd h (Nat.not_lt_zero _)
  | succ fuel ih =>
    obtain ⟨fuel', rfl⟩ := Nat.exists_eq_succ_of_ne_zero (Nat.ne_of_gt (Nat.zero_lt_of_lt h'))
    rw [search_succ, search_succ, settle_unfiltered]
    refine searchFrom_congr ⟨rfl, rfl, rfl, rfl⟩ fun _ b rest pending best hchunk => ?_
    have hsize := size_advance hchunk
    rw [size_refill] at hsize
    exact ih (by omega) (by omega)

/-! ### The prefilter is invisible -/

/-- Without the prefilter, a byte that is no first byte is passed over. -/
theorem searchFrom_skip (hf : p.Filtered) (hempty : p.canMatchEmpty = false) {b : Byte}
    {rest : List Byte} (hchunk : cur.chunk = b :: rest) (hb : p.firstByteSet b = false) :
    searchFrom p.unfiltered fuel (cur, false) [] none =
      search p.unfiltered fuel (cur.advance b) [] none := by
  obtain ⟨hscan, hconsume⟩ := expand_start hf (contextAt cur.prev (some b)) cur.sp hempty
  have hexpand : expand p.unfiltered (contextAt cur.prev (some b)) cur.sp [] none =
      expand p (contextAt cur.prev (some b)) cur.sp [] none := rfl
  have hscan' : scan p.unfiltered cur.sp (expand p (contextAt cur.prev (some b)) cur.sp [] none) none =
      none := hscan
  have hcode : p.unfiltered.code = p.code := rfl
  simp only [searchFrom, hchunk, Bool.false_eq_true, if_false, List.head?_cons, hexpand, hscan', hcode,
    hconsume b hb, Option.isSome_none, Bool.false_and]

theorem skip_cons {firstByteSet : Byte → Bool} {k : Nat} {b : Byte} {rest : List Byte}
    (h : cur.chunk = b :: rest) :
    skip firstByteSet (k + 1) cur =
      if firstByteSet b = true then (cur, false)
      else if (cur.advance b).refill.2 = true then ((cur.advance b).refill.1, true)
      else skip firstByteSet k (cur.advance b).refill.1 := by
  rw [skip, h]

/-- **The skip loop** comes to where the search comes without it. -/
theorem searchFrom_skips (hf : p.Filtered) (hempty : p.canMatchEmpty = false) {k : Nat}
    (hchunk : cur.chunk ≠ []) (hk : cur.size ≤ k) (hfuel : cur.size ≤ fuel)
    (hsmaller : ∀ cur' : Cursor, cur'.size < cur.size → ∀ pending best,
      search p fuel cur' pending best = search p.unfiltered fuel cur' pending best) :
    searchFrom p fuel (skip p.firstByteSet k cur) [] none =
      searchFrom p.unfiltered fuel (cur, false) [] none := by
  induction k generalizing cur with
  | zero =>
    obtain ⟨b, rest, hb⟩ := List.exists_cons_of_ne_nil hchunk
    have := size_advance hb
    omega
  | succ k ih =>
    obtain ⟨b, rest, hb⟩ := List.exists_cons_of_ne_nil hchunk
    have hsize := size_advance hb
    rw [skip_cons hb]
    cases hfirst : p.firstByteSet b with
    | true =>
      rw [if_pos rfl]
      refine searchFrom_congr ⟨rfl, rfl, rfl, rfl⟩ fun _ c rest pending best hc => ?_
      have hsize' : (cur.advance c).size + 1 = cur.size := size_advance hc
      exact hsmaller _ (show (cur.advance c).size < cur.size by omega) _ _
    | false =>
      rw [searchFrom_skip hf hempty hb hfirst, if_neg (by decide)]
      obtain ⟨f, rfl⟩ := Nat.exists_eq_succ_of_ne_zero (show fuel ≠ 0 by omega)
      rw [search_succ, settle_unfiltered]
      have hrsize := size_refill (cur.advance b)
      have hrchunk := @refill_chunk (cur.advance b)
      generalize (cur.advance b).refill = r at hrsize hrchunk
      obtain ⟨cur', atEnd⟩ := r
      dsimp only at hrsize hrchunk ⊢
      cases atEnd with
      | true =>
        rw [if_pos rfl]
        refine searchFrom_congr ⟨rfl, rfl, rfl, rfl⟩ fun hend => ?_
        cases hend
      | false =>
        rw [if_neg (by decide), ih (hrchunk rfl) (by omega) (by omega) fun c hc => hsmaller c (by omega)]
        refine searchFrom_congr ⟨rfl, rfl, rfl, rfl⟩ fun _ c rest pending best hc => ?_
        have hsize' : (cur'.advance c).size + 1 = cur'.size := size_advance hc
        exact search_fuel (show (cur'.advance c).size < f + 1 by omega)
          (show (cur'.advance c).size < f by omega)

/-- **A search with the prefilter is the search without it.** -/
theorem search_unfiltered (hf : p.Filtered) (h : cur.size < fuel) :
    search p fuel cur pending best = search p.unfiltered fuel cur pending best := by
  induction fuel generalizing cur pending best with
  | zero => exact absurd h (Nat.not_lt_zero _)
  | succ fuel ih =>
    rw [search_succ, search_succ, settle_unfiltered, settle]
    have hrsize := size_refill cur
    have hrchunk := @refill_chunk cur
    generalize cur.refill = r at hrsize hrchunk
    obtain ⟨cur', atEnd⟩ := r
    dsimp only at hrsize hrchunk
    have hsame : searchFrom p fuel (cur', atEnd) pending best =
        searchFrom p.unfiltered fuel (cur', atEnd) pending best := by
      refine searchFrom_congr ⟨rfl, rfl, rfl, rfl⟩ fun _ b rest pending best hb => ?_
      have hsize : (cur'.advance b).size + 1 = cur'.size := size_advance hb
      exact ih (show (cur'.advance b).size < fuel by omega)
    dsimp only
    split_ifs with hskip
    · simp only [Bool.and_eq_true, Bool.not_eq_true', List.isEmpty_iff,
        Option.isNone_iff_eq_none] at hskip
      obtain ⟨⟨⟨rfl, rfl⟩, rfl⟩, hempty⟩ := hskip
      exact searchFrom_skips hf hempty (hrchunk rfl) (Nat.le_refl _) (by omega)
        fun c hc pending best => ih (by omega)
    · exact hsame

/-- **The prefilter is invisible**: whatever the pattern and wherever the input is, the search
returns the same match, the same captures and the same cursor as without it. -/
theorem prefilter_invisible {pattern : List Byte} {ast : Ast} (h : nfaParse pattern = .ok ast)
    (cur : Cursor) : execCore (nfaCompile ast) cur = execCore (nfaCompile ast).unfiltered cur := by
  rw [execCore, execCore, search_unfiltered (nfaParse_filtered h) (Nat.lt_succ_self _)]
  rfl

/-- `b$` in two chunks, from the second byte of the first. -/
theorem prefilter_invisible_anchored :
    execCore (nfaCompile (.concat [.literal [98] false, .anchor .eol])) ⟨[97, 97], [[98, 10]], 1, some 97⟩ =
      execCore (nfaCompile (.concat [.literal [98] false, .anchor .eol])).unfiltered
        ⟨[97, 97], [[98, 10]], 1, some 97⟩ :=
  @prefilter_invisible [98, 36] _ rfl _

end Jacl.Regex
