import Jacl.SumTreeRuns

/-!
# The height of a sum tree

A concatenation makes the tree higher where the two nodes that meet have no room for each other
and every node of the spine above is full.  Nothing keeps the number of children up after a split,
so the number of elements does not bound the height: two elements suffice for any.  Heights are
bounded in the runs in which no concatenation at the bound is of that kind.
-/

namespace Jacl.SumTree

variable {α σ : Type}

/-! ### Shapes -/

/-- Elements, or children. -/
def Node.size : Node α σ → Nat
  | .leaf es _ => es.length
  | .internal cs _ _ _ => cs.length

/-- Every leaf `h` levels down, and no node empty or too large, whatever the counts say. -/
inductive Node.Shape (leafMax : Nat) : Nat → Node α σ → Prop
  | leaf {es : List α} {s : σ} : es ≠ [] → es.length ≤ leafMax → Shape leafMax 1 (.leaf es s)
  | internal {h : Nat} {cs : List (Node α σ)} {ks : List Nat} {n : Nat} {s : σ} : cs ≠ [] →
      cs.length ≤ leafMax → (∀ c ∈ cs, Shape leafMax h c) →
      Shape leafMax (h + 1) (.internal cs ks n s)

structure Root.Shape (leafMax : Nat) (r : Root α σ) : Prop where
  node : ∀ n ∈ r.node, n.Shape leafMax r.height
  height : r.node = none → r.height = 0

/-- The right spine, `delta` levels down, has no room for `right`. -/
def RightFull (leafMax : Nat) (right : Node α σ) : Nat → Node α σ → Prop
  | 0, bottom => leafMax < bottom.size + right.size
  | delta + 1, .internal cs _ _ _ =>
    cs.length = leafMax ∧ ∀ last ∈ cs.getLast?, RightFull leafMax right delta last
  | _ + 1, .leaf _ _ => False

/-- The left spine, `delta` levels down, has no room for `left`. -/
def LeftFull (leafMax : Nat) (left : Node α σ) : Nat → Node α σ → Prop
  | 0, bottom => leafMax < left.size + bottom.size
  | delta + 1, .internal cs _ _ _ =>
    cs.length = leafMax ∧ ∀ first ∈ cs.head?, LeftFull leafMax left delta first
  | _ + 1, .leaf _ _ => False

/-- What makes a concatenation higher than its operands. -/
def Grows (leafMax : Nat) (left right : Root α σ) : Prop :=
  ∃ l ∈ left.node, ∃ r ∈ right.node,
    if right.height ≤ left.height then RightFull leafMax r (left.height - right.height) l
    else LeftFull leafMax l (right.height - left.height) r

variable [Monoid σ] {leafMax : Nat}

theorem Node.Sound.toShape {h : Nat} {n : Node α σ} (hn : n.Sound leafMax h) :
    n.Shape leafMax h := by
  induction hn with
  | leaf hne hlen => exact .leaf hne hlen
  | internal hne hlen _ ih => exact .internal hne hlen ih

omit [Monoid σ] in
theorem Node.Shape.forms {h : Nat} {n : Node α σ} (hn : n.Shape leafMax h) :
    (∃ es s, n = .leaf es s ∧ es ≠ [] ∧ es.length ≤ leafMax ∧ h = 1) ∨
    ∃ cs ks m s, n = .internal cs ks m s ∧ cs ≠ [] ∧ cs.length ≤ leafMax ∧
      ∃ h', h = h' + 1 ∧ ∀ c ∈ cs, c.Shape leafMax h' := by
  cases hn with
  | leaf hne hlen => exact .inl ⟨_, _, rfl, hne, hlen, rfl⟩
  | internal hne hlen hcs => exact .inr ⟨_, _, _, _, rfl, hne, hlen, _, rfl, hcs⟩

omit [Monoid σ] in
theorem Node.Shape.pos {h : Nat} {n : Node α σ} (hn : n.Shape leafMax h) : 0 < h := by
  cases hn with
  | leaf => exact Nat.one_pos
  | internal => exact Nat.succ_pos _

theorem shape_mkInternal {h : Nat} {cs : List (Node α σ)} (hne : cs ≠ [])
    (hlen : cs.length ≤ leafMax) (hcs : ∀ c ∈ cs, c.Shape leafMax h) :
    (mkInternal cs).Shape leafMax (h + 1) :=
  .internal hne hlen hcs

/-! ### Concatenation -/

/-- Nodes of one height are merged if there is room for both. -/
theorem merge_shape {h : Nat} {a b : Node α σ} (ha : a.Shape leafMax h) (hb : b.Shape leafMax h) :
    (merge leafMax a b = none ∧ leafMax < a.size + b.size) ∨
    ∃ m, merge leafMax a b = some m ∧ a.size + b.size ≤ leafMax ∧ m.Shape leafMax h ∧
      m.size = a.size + b.size := by
  obtain ⟨es, s, rfl, hne, -, rfl⟩ | ⟨cs, ks, k, s, rfl, hne, -, h', rfl, hcs⟩ := ha.forms
  · obtain ⟨es', s', rfl, -, -, -⟩ | ⟨cs', ks', k', s', rfl, hne', -, h', h0, hcs'⟩ := hb.forms
    · simp only [merge, Node.size]
      by_cases hroom : es.length + es'.length ≤ leafMax
      · rw [if_pos hroom]
        refine .inr ⟨_, rfl, hroom, .leaf ?_ ?_, List.length_append⟩
        · exact fun h0 => hne (List.append_eq_nil_iff.mp h0).1
        · rw [List.length_append]
          exact hroom
      · exact .inl ⟨if_neg hroom, Nat.not_le.mp hroom⟩
    · obtain ⟨c, hc⟩ := List.exists_mem_of_ne_nil cs' hne'
      have := (hcs' c hc).pos
      omega
  · obtain ⟨es', s', rfl, -, -, h0⟩ | ⟨cs', ks', k', s', rfl, -, -, h'', heq, hcs'⟩ := hb.forms
    · obtain ⟨c, hc⟩ := List.exists_mem_of_ne_nil cs hne
      have := (hcs c hc).pos
      omega
    · cases heq
      simp only [merge, Node.size]
      by_cases hroom : cs.length + cs'.length ≤ leafMax
      · rw [if_pos hroom]
        refine .inr ⟨_, rfl, hroom, shape_mkInternal ?_ ?_ ?_, List.length_append⟩
        · exact fun h0 => hne (List.append_eq_nil_iff.mp h0).1
        · rw [List.length_append]
          exact hroom
        · intro c hc
          obtain hc | hc := List.mem_append.mp hc
          · exact hcs c hc
          · exact hcs' c hc
      · exact .inl ⟨if_neg hroom, Nat.not_le.mp hroom⟩

theorem divide_shape {h : Nat} (cs : List (Node α σ)) (hm : 0 < leafMax) (hne : cs ≠ [])
    (hlen : cs.length ≤ leafMax + 1) (hcs : ∀ c ∈ cs, c.Shape leafMax h) :
    (divide leafMax cs).1.Shape leafMax (h + 1) ∧
    (∀ n ∈ (divide leafMax cs).2, n.Shape leafMax (h + 1)) ∧
    ((divide leafMax cs).2 = none ↔ cs.length ≤ leafMax) := by
  rw [divide]
  by_cases hfit : cs.length ≤ leafMax
  · rw [if_pos hfit]
    exact ⟨shape_mkInternal hne hfit hcs, (by simp), iff_of_true rfl hfit⟩
  · rw [if_neg hfit]
    have htake : (cs.take (cs.length / 2)).length = cs.length / 2 := by
      rw [List.length_take]
      omega
    have hdrop : (cs.drop (cs.length / 2)).length = cs.length - cs.length / 2 := List.length_drop
    refine ⟨shape_mkInternal ?_ (by omega) fun c hc => hcs c (List.mem_of_mem_take hc), ?_,
      iff_of_false (by simp) hfit⟩
    · exact List.ne_nil_of_length_pos (by omega)
    · rintro n ⟨⟩
      refine shape_mkInternal ?_ (by omega) fun c hc => hcs c (List.mem_of_mem_drop hc)
      exact List.ne_nil_of_length_pos (by omega)

omit [Monoid σ] in
/-- A node of the spine overflows if it was full and the level below it overflows. -/
theorem overflow_iff {len count : Nat} {o below : Option (Node α σ)} (hlen : len ≤ leafMax)
    (hcount : count = len + below.toList.length) (ho : o = none ↔ count ≤ leafMax) :
    o ≠ none ↔ len = leafMax ∧ below ≠ none := by
  rw [Ne, ho]
  cases below with
  | none =>
    refine iff_of_false (fun hover => hover ?_) (fun h => h.2 rfl)
    rw [hcount]
    exact hlen
  | some n =>
    rw [hcount, Option.toList, List.length_singleton]
    constructor
    · intro hover
      exact ⟨by omega, nofun⟩
    · rintro ⟨hfull, -⟩
      omega

/-- A graft overflows just where the spine is full. -/
theorem graftRight_shape {h : Nat} {right n m : Node α σ} {o : Option (Node α σ)}
    (hm : 0 < leafMax) (hr : right.Shape leafMax h) {delta : Nat}
    (hn : n.Shape leafMax (h + delta)) (hgo : graftRight leafMax right delta n = some (m, o)) :
    m.Shape leafMax (h + delta) ∧ (∀ k ∈ o, k.Shape leafMax (h + delta)) ∧
      (o ≠ none ↔ RightFull leafMax right delta n) := by
  induction delta generalizing n m o with
  | zero =>
    rw [graftRight] at hgo
    obtain ⟨hnone, hfull⟩ | ⟨k, hsome, hroom, hk, -⟩ := merge_shape hn hr
    · rw [hnone] at hgo
      cases hgo
      refine ⟨hn, ?_, iff_of_true (by simp) hfull⟩
      rintro k ⟨⟩
      exact hr
    · rw [hsome] at hgo
      cases hgo
      exact ⟨hk, (by simp), iff_of_false (fun h0 => h0 rfl) (Nat.not_lt.mpr hroom)⟩
  | succ delta ih =>
    obtain ⟨es, s, rfl, -, -, h0⟩ | ⟨cs, ks, k, s, rfl, hne, hlen, h', heq, hcs⟩ := hn.forms
    · have := hr.pos
      omega
    · obtain rfl : h' = h + delta := by omega
      obtain ⟨init, last, rfl⟩ := (List.eq_nil_or_concat' cs).resolve_left hne
      rw [graftRight, List.getLast?_concat, List.dropLast_concat] at hgo
      cases hrec : graftRight leafMax right delta last with
      | none => simp [hrec] at hgo
      | some p =>
        obtain ⟨m', o'⟩ := p
        obtain ⟨hm', ho', hiff⟩ := ih (hcs last (List.mem_append_right _ List.mem_cons_self)) hrec
        simp only [hrec, bind, Option.bind, pure, Option.some.injEq] at hgo
        have hcount : (init ++ [m'] ++ o'.toList).length =
            (init ++ [last]).length + o'.toList.length := by
          simp only [List.length_append, List.length_singleton]
        have hone : o'.toList.length ≤ 1 := by cases o' <;> simp
        obtain ⟨h1, h2, h3⟩ := divide_shape (h := h + delta) (init ++ [m'] ++ o'.toList) hm
          (by simp) (by omega)
          (by
            intro c hc
            obtain hc | hc := List.mem_append.mp hc
            · obtain hc | hc := List.mem_append.mp hc
              · exact hcs c (List.mem_append_left _ hc)
              · rw [List.mem_singleton.mp hc]
                exact hm'
            · exact ho' c (Option.mem_toList.mp hc))
        rw [hgo] at h1 h2 h3
        refine ⟨h1, h2, ?_⟩
        rw [RightFull, List.getLast?_concat]
        simp only [Option.mem_some_iff, forall_eq', ← hiff]
        exact overflow_iff hlen hcount h3

theorem graftLeft_shape {h : Nat} {left n m : Node α σ} {o : Option (Node α σ)}
    (hm : 0 < leafMax) (hl : left.Shape leafMax h) {delta : Nat}
    (hn : n.Shape leafMax (h + delta)) (hgo : graftLeft leafMax left delta n = some (o, m)) :
    m.Shape leafMax (h + delta) ∧ (∀ k ∈ o, k.Shape leafMax (h + delta)) ∧
      (o ≠ none ↔ LeftFull leafMax left delta n) := by
  induction delta generalizing n m o with
  | zero =>
    rw [graftLeft] at hgo
    obtain ⟨hnone, hfull⟩ | ⟨k, hsome, hroom, hk, -⟩ := merge_shape hl hn
    · rw [hnone] at hgo
      cases hgo
      refine ⟨hn, ?_, iff_of_true (by simp) hfull⟩
      rintro k ⟨⟩
      exact hl
    · rw [hsome] at hgo
      cases hgo
      exact ⟨hk, (by simp), iff_of_false (fun h0 => h0 rfl) (Nat.not_lt.mpr hroom)⟩
  | succ delta ih =>
    obtain ⟨es, s, rfl, -, -, h0⟩ | ⟨cs, ks, k, s, rfl, hne, hlen, h', heq, hcs⟩ := hn.forms
    · have := hl.pos
      omega
    · obtain rfl : h' = h + delta := by omega
      obtain ⟨first, rest, rfl⟩ := List.exists_cons_of_ne_nil hne
      rw [graftLeft, List.head?_cons, List.tail_cons] at hgo
      cases hrec : graftLeft leafMax left delta first with
      | none => simp [hrec] at hgo
      | some p =>
        obtain ⟨o', m'⟩ := p
        obtain ⟨hm', ho', hiff⟩ := ih (hcs first List.mem_cons_self) hrec
        have hcount : (o'.toList ++ [m'] ++ rest).length =
            (first :: rest).length + o'.toList.length := by
          simp only [List.length_append, List.length_cons, List.length_nil]
          omega
        have hone : o'.toList.length ≤ 1 := by cases o' <;> simp
        obtain ⟨h1, h2, h3⟩ := divide_shape (h := h + delta) (o'.toList ++ [m'] ++ rest) hm
          (by simp) (by omega)
          (by
            intro c hc
            obtain hc | hc := List.mem_append.mp hc
            · obtain hc | hc := List.mem_append.mp hc
              · exact ho' c (Option.mem_toList.mp hc)
              · rw [List.mem_singleton.mp hc]
                exact hm'
            · exact hcs c (List.mem_cons_of_mem _ hc))
        have hfull : LeftFull leafMax left (delta + 1) (.internal (first :: rest) ks k s) ↔
            (divide leafMax (o'.toList ++ [m'] ++ rest)).2 ≠ none := by
          rw [LeftFull, List.head?_cons]
          simp only [Option.mem_some_iff, forall_eq', ← hiff]
          exact (overflow_iff hlen hcount h3).symm
        rw [hfull]
        simp only [hrec, bind, Option.bind] at hgo
        obtain ⟨d, hd⟩ : ∃ d, d = divide leafMax (o'.toList ++ [m'] ++ rest) := ⟨_, rfl⟩
        rw [← hd] at hgo h1 h2 ⊢
        obtain ⟨d1, _ | d2⟩ := d
        · cases hgo
          exact ⟨h1, (by simp), Iff.rfl⟩
        · cases hgo
          refine ⟨h2 _ rfl, ?_, iff_of_true (by simp) (by simp)⟩
          rintro k ⟨⟩
          exact h1

/-- A root of height `h`, or of `h + 1` if it `grows`. -/
structure HighAs (leafMax h : Nat) (grows : Prop) (r : Root α σ) : Prop where
  shape : r.Shape leafMax
  higher : grows → r.height = h + 1
  same : ¬ grows → r.height = h

omit [Monoid σ] in
theorem shape_node {h count : Nat} {n : Node α σ} (hn : n.Shape leafMax h) :
    (Root.mk (some n) count h).Shape leafMax := by
  refine ⟨?_, nofun⟩
  rintro m ⟨⟩
  exact hn

/-- The root over what a graft came to, the overflow on either side. -/
theorem highAs_graft {h count : Nat} {a b : Node α σ} {grows : Prop} (hm : 2 ≤ leafMax)
    (ha : a.Shape leafMax h) (hb : b.Shape leafMax h) (hg : grows) :
    HighAs leafMax h grows ⟨some (mkInternal [a, b]), count, h + 1⟩ := by
  refine ⟨shape_node (shape_mkInternal nofun hm ?_), fun _ => rfl, fun hng => absurd hg hng⟩
  rintro c hc
  obtain rfl | hc := List.mem_cons.mp hc
  · exact ha
  · rw [List.mem_singleton.mp hc]
    exact hb

omit [Monoid σ] in
theorem highAs_same {h count : Nat} {n : Node α σ} {grows : Prop} (hn : n.Shape leafMax h)
    (hg : ¬ grows) : HighAs leafMax h grows ⟨some n, count, h⟩ :=
  ⟨shape_node hn, fun h => absurd h hg, fun _ => rfl⟩

/-- **A concatenation is as high as the higher operand, and one more just where it grows.** -/
theorem concat_height {left right t : Root α σ} (hm : 2 ≤ leafMax) (hl : left.Shape leafMax)
    (hr : right.Shape leafMax) (ht : concat leafMax left right = some t) :
    HighAs leafMax (max left.height right.height) (Grows leafMax left right) t := by
  have hpos : 0 < leafMax := Nat.zero_lt_of_lt hm
  obtain ⟨_ | ln, lcount, lheight⟩ := left
  · cases ht
    have h0 : lheight = 0 := hl.height rfl
    subst h0
    refine ⟨hr, fun hg => ?_, fun _ => (Nat.zero_max _).symm⟩
    obtain ⟨l, hl0, -⟩ := hg
    cases hl0
  obtain ⟨_ | rn, rcount, rheight⟩ := right
  · cases ht
    have h0 : rheight = 0 := hr.height rfl
    subst h0
    refine ⟨hl, fun hg => ?_, fun _ => (Nat.max_zero _).symm⟩
    obtain ⟨l, -, r, hr0, -⟩ := hg
    cases hr0
  have hln : ln.Shape leafMax lheight := hl.node ln rfl
  have hrn : rn.Shape leafMax rheight := hr.node rn rfl
  have hgrows : Grows leafMax (Root.mk (some ln) lcount lheight) ⟨some rn, rcount, rheight⟩ ↔
      if rheight ≤ lheight then RightFull leafMax rn (lheight - rheight) ln
      else LeftFull leafMax ln (rheight - lheight) rn := by
    simp only [Grows, Option.mem_some_iff, exists_eq_left']
  change HighAs leafMax (max lheight rheight) _ t
  rw [hgrows]
  simp only [concat] at ht
  by_cases heq : lheight = rheight
  · subst heq
    rw [if_pos rfl] at ht
    rw [if_pos (Nat.le_refl _), Nat.sub_self, Nat.max_self, RightFull]
    obtain ⟨hnone, hfull⟩ | ⟨k, hsome, hroom, hk, -⟩ := merge_shape hln hrn
    · rw [hnone] at ht
      cases ht
      exact highAs_graft hm hln hrn hfull
    · rw [hsome] at ht
      cases ht
      exact highAs_same hk (Nat.not_lt.mpr hroom)
  rw [if_neg heq] at ht
  by_cases hgt : rheight < lheight
  · rw [if_pos hgt] at ht
    rw [if_pos (Nat.le_of_lt hgt), Nat.max_eq_left (Nat.le_of_lt hgt)]
    by_cases hfar : pathMax ≤ lheight - rheight
    · rw [if_pos hfar] at ht
      cases ht
    rw [if_neg hfar] at ht
    obtain ⟨⟨m, o⟩, hgo, hto⟩ := Option.map_eq_some_iff.mp ht
    have hh : rheight + (lheight - rheight) = lheight := by omega
    obtain ⟨hmS, hoS, hiff⟩ := graftRight_shape hpos hrn (by rw [hh]; exact hln) hgo
    rw [hh] at hmS hoS
    rw [← hiff]
    cases o with
    | none =>
      subst hto
      exact highAs_same hmS (fun h => h rfl)
    | some o =>
      subst hto
      exact highAs_graft hm hmS (hoS o rfl) (by simp)
  · rw [if_neg hgt] at ht
    rw [if_neg (by omega), Nat.max_eq_right (by omega)]
    by_cases hfar : pathMax ≤ rheight - lheight
    · rw [if_pos hfar] at ht
      cases ht
    rw [if_neg hfar] at ht
    obtain ⟨⟨o, m⟩, hgo, hto⟩ := Option.map_eq_some_iff.mp ht
    have hh : lheight + (rheight - lheight) = rheight := by omega
    obtain ⟨hmS, hoS, hiff⟩ := graftLeft_shape hpos hln (by rw [hh]; exact hrn) hgo
    rw [hh] at hmS hoS
    rw [← hiff]
    cases o with
    | none =>
      subst hto
      exact highAs_same hmS (fun h => h rfl)
    | some o =>
      subst hto
      exact highAs_graft hm (hoS o rfl) hmS (by simp)

/-! ### Setting and splitting -/

section
variable (summarize : List α → σ)

/-- A shape of height `limit` at most. -/
def Within (leafMax limit : Nat) (r : Root α σ) : Prop := r.Shape leafMax ∧ r.height ≤ limit

variable {summarize} {limit : Nat}

end

/-! ### Trees that are as high as one likes -/

/-- A tree with elements to go on from: as many as its root has children. -/
structure Broad (leafMax h : Nat) (n : Node α σ) (r : Root α σ) : Prop where
  exact : Exact leafMax r
  node : r.node = some n
  height : r.height = h
  size : n.size = n.toList.length
  two : 2 ≤ n.size
  room : n.size ≤ leafMax

namespace Broad

variable {summarize : List α → σ} {h : Nat} {n : Node α σ} {r : Root α σ}

theorem sound (hb : Broad leafMax h n r) : n.Sound leafMax h := by
  rw [← hb.height]
  exact hb.exact.1.node n hb.node

theorem fits (hb : Broad leafMax h n r) (hsmall : leafMax < 2 ^ 63) : Fits r r := by
  have hroom := hb.room
  rw [Fits, Root.toList_some hb.node, ← hb.size]
  omega

end Broad

section
variable (summarize : List α → σ)

omit [Monoid σ] in
theorem exists_of_held {n : Option (Node α σ)} (hn : held n ≠ []) : ∃ m, n = some m := by
  cases n with
  | none => exact absurd rfl hn
  | some m => exact ⟨m, rfl⟩

/-- A split within the first of two children: what goes to the right has two again. -/
theorem split_first {h : Nat} (count index : Nat) {a b : Node α σ} (ha : a.Sound leafMax h)
    (hlt : a.toList.length < 2 ^ 64) (hh : h ≤ pathMax) (h0 : index ≠ 0)
    (hin : index < a.toList.length) (hcount : index < count) :
    ∃ left a', split summarize ⟨some (mkInternal [a, b]), count, h + 1⟩ index =
        some (some (left, ⟨some (mkInternal [a', b]), count - index, h + 1⟩)) ∧
      a'.toList = a.toList.drop index ∧ a'.Sound leafMax h := by
  obtain ⟨l, r, hsplit, hs⟩ := splitAt_spec summarize ha hlt hin
  obtain ⟨a', rfl⟩ := exists_of_held (n := r) (by
    rw [hs.right]
    exact List.ne_nil_of_length_pos (by rw [List.length_drop]; omega))
  refine ⟨trimmed index (h + 1) (wrap l.toList), a', ?_, ?_, hs.soundRight a' rfl⟩
  · simp only [split]
    rw [if_neg (by omega), if_neg h0, if_neg (by omega), if_neg (by omega)]
    simp only [bind, Option.bind, mkInternal, splitAt, List.map_cons, splitIn]
    rw [if_pos (by rw [ha.count_eq]; exact hin), hsplit]
    rfl
  · rw [← hs.right, held_some]

/-- A split within the second of two children: what goes to the left has two again. -/
theorem split_second {h : Nat} (count index : Nat) {a b : Node α σ} (ha : a.Sound leafMax h)
    (hb : b.Sound leafMax h) (hlt : b.toList.length < 2 ^ 64) (hh : h ≤ pathMax)
    (hout : a.toList.length < index) (hin : index < a.toList.length + b.toList.length)
    (hcount : index < count) :
    ∃ right b', split summarize ⟨some (mkInternal [a, b]), count, h + 1⟩ index =
        some (some (⟨some (mkInternal [a, b']), index, h + 1⟩, right)) ∧
      b'.toList = b.toList.take (index - a.toList.length) ∧ b'.Sound leafMax h := by
  obtain ⟨l, r, hsplit, hs⟩ := splitAt_spec summarize hb hlt
    (i := index - a.toList.length) (by omega)
  obtain ⟨b', rfl⟩ := exists_of_held (n := l) (by
    rw [hs.left]
    exact List.ne_nil_of_length_pos (by rw [List.length_take]; omega))
  have hgo : splitAt summarize (mkInternal [a, b]) index =
      some (wrap [a, b'], wrap (r.toList ++ [])) := by
    simp only [mkInternal, splitAt, List.map_cons, List.map_nil, splitIn]
    rw [if_neg (by rw [ha.count_eq]; omega), if_pos (by rw [ha.count_eq, hb.count_eq]; omega),
      ha.count_eq, hsplit]
    rfl
  refine ⟨trimmed (count - index) (h + 1) (wrap (r.toList ++ [])), b', ?_, ?_, hs.soundLeft b' rfl⟩
  · simp only [split]
    rw [if_neg (by omega), if_neg (by omega), if_neg (by omega), if_neg (by omega)]
    simp only [bind, Option.bind, hgo]
    rfl
  · rw [← hs.left, held_some]

end

theorem Broad.higher {summarize : List α → σ} {h : Nat} {n : Node α σ} {r : Root α σ}
    (hb : Broad leafMax h n r) (hm : 2 ≤ leafMax) (hsmall : leafMax < 2 ^ 63)
    (hfull : leafMax < n.size + n.size) (hh : h ≤ pathMax)
    (hr : Made leafMax summarize (fun _ _ => True) r) :
    ∃ m t, Made leafMax summarize (fun _ _ => True) t ∧ Broad leafMax (h + 1) m t := by
  have hn := hb.sound
  have hroom := hb.room
  have hsize := hb.size
  have htwo := hb.two
  -- twice the tree under a root of two children
  have hnone : merge leafMax n n = none := by
    obtain ⟨hnone, -⟩ | ⟨m, -, hle, -⟩ := merge_shape hn.toShape hn.toShape
    · exact hnone
    · omega
  have hcount : r.count = n.toList.length := by
    rw [hb.exact.1.count, Root.toList_some hb.node]
  have hgo : concat leafMax r r =
      some ⟨some (mkInternal [n, n]), n.toList.length + n.toList.length, h + 1⟩ := by
    simp only [concat, hb.node, if_pos, hnone, hb.height, hcount]
    rw [Nat.mod_eq_of_lt (by omega)]
  have htwice := exact_concat hm hb.exact hb.exact (hb.fits hsmall) hgo
  -- the last element of the first, and the second
  obtain ⟨left, a, hsplit, ha, has⟩ := split_first summarize
    (n.toList.length + n.toList.length) (n.toList.length - 1) (b := n) hn (by omega) hh
    (by omega) (by omega) (by omega)
  have hright := (exact_split htwice hsplit).2
  have halen : a.toList.length = 1 := by
    rw [ha, List.length_drop]
    omega
  -- and of the second the first element
  obtain ⟨right, b, hsplit', hbl, hbs⟩ := split_second summarize
    (n.toList.length + n.toList.length - (n.toList.length - 1)) 2 has hn (by omega) hh
    (by omega) (by omega) (by omega)
  have hblen : b.toList.length = 1 := by
    rw [hbl, List.length_take]
    omega
  refine ⟨mkInternal [a, b], _, .splitLeft (.splitRight (.concat hr hr trivial hgo) hsplit) hsplit',
    ⟨(exact_split hright hsplit').1, rfl, rfl, ?_, Nat.le_refl _, hm⟩⟩
  rw [toList_mkInternal, elems_cons, elems_cons, elems_nil, List.append_nil, List.length_append,
    halen, hblen]
  rfl

end Jacl.SumTree
