import Jacl.SumTreeRuns

/-!
# What every leaf of a sum tree keeps

`Each p` says `p` of the elements and the summary of every leaf.  A tree gets leaves by
summarizing elements and by merging two leaves, so that every operation keeps what these two
keep.  A `Measure` is a part of the summary that counts over the elements; with it, the
summary of a tree counts over all of them.
-/

namespace Jacl.SumTree

variable {α σ τ : Type}

inductive Node.Each (p : List α → σ → Prop) : Node α σ → Prop
  | leaf {es : List α} {s : σ} : p es s → Each p (.leaf es s)
  | internal {cs : List (Node α σ)} {ks : List Nat} {k : Nat} {s : σ} : (∀ c ∈ cs, Each p c) →
      Each p (.internal cs ks k s)

def Root.Each (p : List α → σ → Prop) (r : Root α σ) : Prop := ∀ n ∈ r.node, n.Each p

variable {p : List α → σ → Prop}

theorem Node.Each.leaf_iff {es : List α} {s : σ} : (Node.leaf es s).Each p ↔ p es s := by
  constructor
  · intro h
    cases h with
    | leaf h => exact h
  · exact .leaf

theorem Node.Each.children {cs : List (Node α σ)} {ks : List Nat} {k : Nat} {s : σ}
    (h : (Node.internal cs ks k s).Each p) : ∀ c ∈ cs, c.Each p := by
  cases h with
  | internal h => exact h

theorem each_empty : (empty : Root α σ).Each p := nofun

theorem each_node {n : Node α σ} {count height : Nat} (h : n.Each p) :
    (Root.mk (some n) count height).Each p := by
  rintro m ⟨⟩
  exact h

theorem each_append {xs ys : List (Node α σ)} (hx : ∀ c ∈ xs, c.Each p) (hy : ∀ c ∈ ys, c.Each p) :
    ∀ c ∈ xs ++ ys, c.Each p := by
  intro c hc
  obtain hc | hc := List.mem_append.mp hc
  · exact hx c hc
  · exact hy c hc

theorem each_toList {n : Option (Node α σ)} (h : ∀ m ∈ n, m.Each p) : ∀ c ∈ n.toList, c.Each p :=
  fun c hc => h c (Option.mem_toList.mp hc)

section Operations
variable [Monoid σ] {leafMax : Nat} {summarize : List α → σ}

/-- Two leaves that are merged keep it. -/
def MergeKept (p : List α → σ → Prop) : Prop :=
  ∀ es s es' s', p es s → p es' s' → p (es ++ es') (s * s')

/-- Both parts of a leaf keep it, if the leaf is cut where `cut` allows it. -/
structure CutKept (summarize : List α → σ) (p : List α → σ → Prop) (cut : List α → Nat → Prop) :
    Prop where
  left : ∀ xs ys i, cut (xs ++ ys) i → i < xs.length → cut xs i
  right : ∀ xs ys i, cut (xs ++ ys) (xs.length + i) → cut ys i
  leaf : ∀ es s i, p es s → cut es i → i < es.length →
    p (es.take i) (summarize (es.take i)) ∧ p (es.drop i) (summarize (es.drop i))

theorem each_mkInternal {cs : List (Node α σ)} (h : ∀ c ∈ cs, c.Each p) : (mkInternal cs).Each p :=
  .internal h

theorem each_wrap {cs : List (Node α σ)} (h : ∀ c ∈ cs, c.Each p) : ∀ n ∈ wrap cs, n.Each p := by
  intro n hn
  rw [wrap] at hn
  split at hn
  · cases hn
  · cases hn
    exact each_mkInternal h

/-! ### Building -/

theorem mem_of_mem_chunks {m n : Nat} {xs ys : List α} (h : ys ∈ chunks m n xs) :
    ∀ y ∈ ys, y ∈ xs := by
  induction n generalizing xs with
  | zero => cases h
  | succ n ih =>
    cases xs with
    | nil => cases h
    | cons x xs =>
      intro y hy
      obtain rfl | h := List.mem_cons.mp h
      · exact List.mem_of_mem_take hy
      · exact List.mem_of_mem_drop (ih h y hy)

theorem buildUp_each {fuel height top : Nat} {ns : List (Node α σ)} {n : Node α σ}
    (h : ∀ c ∈ ns, c.Each p) (hgo : buildUp leafMax fuel height ns = some (n, top)) : n.Each p := by
  induction fuel generalizing height ns with
  | zero =>
    rcases ns with _ | ⟨c, _ | ⟨d, ns⟩⟩
    · cases hgo
    · cases hgo
      exact h _ List.mem_cons_self
    · cases hgo
  | succ fuel ih =>
    have hup : ∀ c ∈ (chunks leafMax ns.length ns).map mkInternal, c.Each p := by
      intro c hc
      obtain ⟨cs, hcs, rfl⟩ := List.mem_map.mp hc
      exact each_mkInternal fun d hd => h d (mem_of_mem_chunks hcs d hd)
    rcases ns with _ | ⟨c, _ | ⟨d, ns⟩⟩
    · exact ih hup hgo
    · cases hgo
      exact h _ List.mem_cons_self
    · exact ih hup hgo

/-! ### Splitting -/

theorem splitIn_each {cut : List α → Nat → Prop} (hp : CutKept summarize p cut)
    (before : List (Node α σ)) {cs : List (Node α σ)} (hbefore : ∀ c ∈ before, c.Each p)
    (hcs : ∀ c ∈ cs, c.Each p)
    (ih : ∀ c ∈ cs, ∀ {i : Nat} {l r : Option (Node α σ)}, cut c.toList i →
      splitAt summarize c i = some (l, r) → (∀ m ∈ l, m.Each p) ∧ ∀ m ∈ r, m.Each p)
    {i : Nat} (hcut : cut (elems cs) i) {l r : Option (Node α σ)}
    (hgo : splitIn summarize before cs (cs.map fun c => c.toList.length) i = some (l, r)) :
    (∀ m ∈ l, m.Each p) ∧ ∀ m ∈ r, m.Each p := by
  induction cs generalizing before i with
  | nil => simp [splitIn] at hgo
  | cons c cs ihs =>
    have htail := fun d hd => hcs d (List.mem_cons_of_mem _ hd)
    rw [elems_cons] at hcut
    rw [List.map_cons, splitIn] at hgo
    split at hgo
    · rename_i hin
      obtain ⟨⟨l', r'⟩, hsplit, heq⟩ := Option.map_eq_some_iff.mp hgo
      obtain ⟨rfl, rfl⟩ := Prod.mk.inj heq
      obtain ⟨hl', hr'⟩ := ih c List.mem_cons_self (hp.left _ _ _ hcut hin) hsplit
      exact ⟨each_wrap (each_append hbefore (each_toList hl')),
        each_wrap (each_append (each_toList hr') htail)⟩
    · rename_i hout
      refine ihs (before ++ [c]) ?_ htail (fun d hd => ih d (List.mem_cons_of_mem _ hd)) ?_ hgo
      · refine each_append hbefore ?_
        intro d hd
        rw [List.mem_singleton.mp hd]
        exact hcs c List.mem_cons_self
      · refine hp.right c.toList _ _ ?_
        rwa [Nat.add_sub_cancel' (Nat.not_lt.mp hout)]

theorem splitAt_each {cut : List α → Nat → Prop} (hp : CutKept summarize p cut) {h : Nat}
    {n : Node α σ} (hs : n.Sound leafMax h) (hn : n.Each p) {i : Nat} (hcut : cut n.toList i)
    {l r : Option (Node α σ)} (hgo : splitAt summarize n i = some (l, r)) :
    (∀ m ∈ l, m.Each p) ∧ ∀ m ∈ r, m.Each p := by
  induction hs generalizing i l r with
  | @leaf es s _ _ =>
    rw [splitAt] at hgo
    split at hgo
    · cases hgo
    rename_i hin
    split at hgo
    · cases hgo
      refine ⟨(by simp), ?_⟩
      rintro m ⟨⟩
      exact hn
    · cases hgo
      obtain ⟨hl, hr⟩ := hp.leaf es s i (Node.Each.leaf_iff.mp hn) hcut (Nat.not_le.mp hin)
      refine ⟨?_, ?_⟩
      · rintro m ⟨⟩
        exact .leaf hl
      · rintro m ⟨⟩
        exact .leaf hr
  | @internal h cs _ _ _ ih =>
    rw [splitAt] at hgo
    exact splitIn_each hp [] (by simp) hn.children
      (fun c hc _ _ _ hcut hgo => ih c hc (hn.children c hc) hcut hgo) hcut hgo

omit [Monoid σ] in
theorem trim_each {n : Node α σ} (hn : n.Each p) (h : Nat) : (trim n h).1.Each p := by
  induction hn generalizing h with
  | leaf hp => exact .leaf hp
  | @internal cs ks count s hcs ih =>
    rcases cs with _ | ⟨c, _ | ⟨d, cs⟩⟩
    · exact .internal hcs
    · exact ih c List.mem_cons_self (h - 1)
    · exact .internal hcs

omit [Monoid σ] in
theorem trimmed_each {n : Option (Node α σ)} (hn : ∀ m ∈ n, m.Each p) (count h : Nat) :
    (trimmed count h n).Each p := by
  cases n with
  | none => exact each_empty
  | some n => exact each_node (trim_each (hn n rfl) h)

theorem split_each {cut : List α → Nat → Prop} (hp : CutKept summarize p cut)
    {r left right : Root α σ} (hs : r.Sound leafMax) (hr : r.Each p) {i : Nat}
    (hcut : cut r.toList i) (h : split summarize r i = some (some (left, right))) :
    left.Each p ∧ right.Each p := by
  simp only [split] at h
  split at h
  · cases h
  split at h
  · cases h
    exact ⟨each_empty, hr⟩
  split at h
  · cases h
    exact ⟨hr, each_empty⟩
  split at h
  · cases h
  obtain ⟨n, hn, h⟩ := Option.bind_eq_some_iff.mp h
  obtain ⟨⟨l, r'⟩, hsplit, h⟩ := Option.bind_eq_some_iff.mp h
  cases h
  rw [Root.toList, hn, held_some] at hcut
  obtain ⟨hl, hr'⟩ := splitAt_each hp (hs.node n hn) (hr n hn) hcut hsplit
  exact ⟨trimmed_each hl _ _, trimmed_each hr' _ _⟩

/-! ### Concatenation -/

theorem merge_each (hp : MergeKept p) {a b m : Node α σ} (ha : a.Each p) (hb : b.Each p)
    (h : merge leafMax a b = some m) : m.Each p := by
  cases ha with
  | @leaf es s he =>
    cases hb with
    | @leaf es' s' he' =>
      rw [merge] at h
      split at h
      · cases h
        exact .leaf (hp _ _ _ _ he he')
      · cases h
    | internal _ => cases h
  | @internal cs _ _ _ hcs =>
    cases hb with
    | leaf _ => cases h
    | @internal cs' _ _ _ hcs' =>
      rw [merge] at h
      split at h
      · cases h
        exact each_mkInternal (each_append hcs hcs')
      · cases h

theorem divide_each {cs : List (Node α σ)} (h : ∀ c ∈ cs, c.Each p) :
    (divide leafMax cs).1.Each p ∧ ∀ n ∈ (divide leafMax cs).2, n.Each p := by
  rw [divide]
  split
  · exact ⟨each_mkInternal h, (by simp)⟩
  · refine ⟨each_mkInternal fun c hc => h c (List.mem_of_mem_take hc), ?_⟩
    rintro n ⟨⟩
    exact each_mkInternal fun c hc => h c (List.mem_of_mem_drop hc)

theorem graftRight_each (hp : MergeKept p) {right n m : Node α σ} {o : Option (Node α σ)}
    (hr : right.Each p) {delta : Nat} (hn : n.Each p)
    (hgo : graftRight leafMax right delta n = some (m, o)) : m.Each p ∧ ∀ k ∈ o, k.Each p := by
  induction delta generalizing n m o with
  | zero =>
    rw [graftRight] at hgo
    cases hmerge : merge leafMax n right with
    | none =>
      rw [hmerge] at hgo
      cases hgo
      refine ⟨hn, ?_⟩
      rintro k ⟨⟩
      exact hr
    | some k =>
      rw [hmerge] at hgo
      cases hgo
      exact ⟨merge_each hp hn hr hmerge, (by simp)⟩
  | succ delta ih =>
    cases hn with
    | leaf _ => cases hgo
    | @internal cs ks k s hcs =>
      rw [graftRight] at hgo
      obtain ⟨last, hlast, hgo⟩ := Option.bind_eq_some_iff.mp hgo
      obtain ⟨⟨m', o'⟩, hrec, hgo⟩ := Option.bind_eq_some_iff.mp hgo
      obtain ⟨hm', ho'⟩ := ih (hcs last (List.mem_of_getLast? hlast)) hrec
      have hall : ∀ c ∈ cs.dropLast ++ [m'] ++ o'.toList, c.Each p := by
        refine each_append (each_append (fun c hc => hcs c (List.dropLast_subset _ hc)) ?_)
          (each_toList ho')
        intro c hc
        rw [List.mem_singleton.mp hc]
        exact hm'
      have hdiv := @divide_each _ _ p _ leafMax _ hall
      have heq : divide leafMax (cs.dropLast ++ [m'] ++ o'.toList) = (m, o) := Option.some.inj hgo
      rw [heq] at hdiv
      exact hdiv

theorem graftLeft_each (hp : MergeKept p) {left n m : Node α σ} {o : Option (Node α σ)}
    (hl : left.Each p) {delta : Nat} (hn : n.Each p)
    (hgo : graftLeft leafMax left delta n = some (o, m)) : m.Each p ∧ ∀ k ∈ o, k.Each p := by
  induction delta generalizing n m o with
  | zero =>
    rw [graftLeft] at hgo
    cases hmerge : merge leafMax left n with
    | none =>
      rw [hmerge] at hgo
      cases hgo
      refine ⟨hn, ?_⟩
      rintro k ⟨⟩
      exact hl
    | some k =>
      rw [hmerge] at hgo
      cases hgo
      exact ⟨merge_each hp hl hn hmerge, (by simp)⟩
  | succ delta ih =>
    cases hn with
    | leaf _ => cases hgo
    | @internal cs ks k s hcs =>
      rw [graftLeft] at hgo
      obtain ⟨first, hfirst, hgo⟩ := Option.bind_eq_some_iff.mp hgo
      obtain ⟨⟨o', m'⟩, hrec, hgo⟩ := Option.bind_eq_some_iff.mp hgo
      obtain ⟨hm', ho'⟩ := ih (hcs first (List.mem_of_head? hfirst)) hrec
      have hall : ∀ c ∈ o'.toList ++ [m'] ++ cs.tail, c.Each p := by
        refine each_append (each_append (each_toList ho') ?_)
          fun c hc => hcs c (List.mem_of_mem_tail hc)
        intro c hc
        rw [List.mem_singleton.mp hc]
        exact hm'
      have hdiv := @divide_each _ _ p _ leafMax _ hall
      obtain ⟨d, hd⟩ : ∃ d, d = divide leafMax (o'.toList ++ [m'] ++ cs.tail) := ⟨_, rfl⟩
      rw [← hd] at hdiv
      dsimp only at hgo
      rw [← hd] at hgo
      obtain ⟨d1, _ | d2⟩ := d
      · cases hgo
        exact ⟨hdiv.1, (by simp)⟩
      · cases hgo
        refine ⟨hdiv.2 _ rfl, ?_⟩
        rintro k ⟨⟩
        exact hdiv.1

theorem each_two {a b : Node α σ} (ha : a.Each p) (hb : b.Each p) (count height : Nat) :
    (Root.mk (some (mkInternal [a, b])) count height).Each p := by
  refine each_node (each_mkInternal ?_)
  intro c hc
  obtain rfl | hc := List.mem_cons.mp hc
  · exact ha
  · rw [List.mem_singleton.mp hc]
    exact hb

theorem concat_each (hp : MergeKept p) {left right t : Root α σ} (hl : left.Each p)
    (hr : right.Each p) (h : concat leafMax left right = some t) : t.Each p := by
  obtain ⟨_ | ln, lcount, lheight⟩ := left
  · cases h
    exact hr
  obtain ⟨_ | rn, rcount, rheight⟩ := right
  · cases h
    exact hl
  have hln : ln.Each p := hl ln rfl
  have hrn : rn.Each p := hr rn rfl
  simp only [concat] at h
  split at h
  · cases hmerge : merge leafMax ln rn with
    | some m =>
      rw [hmerge] at h
      cases h
      exact each_node (merge_each hp hln hrn hmerge)
    | none =>
      rw [hmerge] at h
      cases h
      exact each_two hln hrn _ _
  split at h
  · split at h
    · cases h
    obtain ⟨⟨m, o⟩, hgraft, heq⟩ := Option.map_eq_some_iff.mp h
    obtain ⟨hm, ho⟩ := graftRight_each hp hrn hln hgraft
    cases o with
    | none =>
      cases heq
      exact each_node hm
    | some o =>
      cases heq
      exact each_two hm (ho o rfl) _ _
  · split at h
    · cases h
    obtain ⟨⟨o, m⟩, hgraft, heq⟩ := Option.map_eq_some_iff.mp h
    obtain ⟨hm, ho⟩ := graftLeft_each hp hln hrn hgraft
    cases o with
    | none =>
      cases heq
      exact each_node hm
    | some o =>
      cases heq
      exact each_two (ho o rfl) hm _ _

end Operations

/-! ### Measures -/

/-- A part of the summary that counts over the elements. -/
structure Measure [Monoid σ] [AddMonoid τ] (summarize : List α → σ) (part : σ → τ)
    (measure : List α → τ) : Prop where
  one : part 1 = 0
  mul : ∀ s t, part (s * t) = part s + part t
  nil : measure [] = 0
  append : ∀ xs ys, measure (xs ++ ys) = measure xs + measure ys
  leaf : ∀ es, part (summarize es) = measure es

namespace Measure

variable [Monoid σ] [AddMonoid τ] {summarize : List α → σ} {part : σ → τ} {measure : List α → τ}

/-- The summaries of merged leaves count the elements of both. -/
theorem mergeKept (h : Measure summarize part measure) :
    MergeKept fun es s => part s = measure es := by
  intro es s es' s' hs hs'
  rw [h.mul, h.append, hs, hs']

theorem totals_eq (h : Measure summarize part measure) {cs : List (Node α σ)}
    (hcs : ∀ c ∈ cs, part c.total = measure c.toList) : part (totals cs) = measure (elems cs) := by
  induction cs with
  | nil => exact h.one.trans h.nil.symm
  | cons c cs ih =>
    rw [totals, elems_cons, h.mul, h.append, hcs c List.mem_cons_self,
      ih fun d hd => hcs d (List.mem_cons_of_mem _ hd)]

/-- **The summary of a tree counts its elements.** -/
theorem total_eq (h : Measure summarize part measure) {n : Node α σ}
    (hn : n.Each fun es s => part s = measure es) : part n.total = measure n.toList := by
  induction hn with
  | leaf hs => exact hs
  | internal _ ih => exact h.totals_eq ih

end Measure

end Jacl.SumTree
