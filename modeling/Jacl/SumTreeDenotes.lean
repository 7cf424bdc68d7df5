import Jacl.SumTree

/-!
# Sum trees denote sequences

`Node.Sound h`: every leaf is `h` levels down and holds between one element and `leafMax`, and
counts and summaries are those of what is below.  Every operation keeps it, and what it does to
the elements is what the operation of lists does.

A count is a `size_t`, and a tree that shares its nodes with itself can have more elements than
one holds; `Fits` excludes the concatenations that come to that.
-/

namespace Jacl.SumTree

variable {α σ : Type}

/-! ### What a tree holds -/

mutual

def Node.toList : Node α σ → List α
  | .leaf es _ => es
  | .internal cs _ _ _ => elems cs

def elems : List (Node α σ) → List α
  | [] => []
  | c :: cs => c.toList ++ elems cs

end

/-- The elements below a node that may not be there. -/
def held (n : Option (Node α σ)) : List α := elems n.toList

def Root.toList (r : Root α σ) : List α := held r.node

@[simp] theorem elems_append (xs ys : List (Node α σ)) : elems (xs ++ ys) = elems xs ++ elems ys := by
  induction xs with
  | nil => rfl
  | cons x xs ih => rw [List.cons_append, elems, elems, ih, List.append_assoc]

@[simp] theorem elems_cons (c : Node α σ) (cs : List (Node α σ)) :
    elems (c :: cs) = c.toList ++ elems cs := rfl

@[simp] theorem elems_nil : elems ([] : List (Node α σ)) = [] := rfl

@[simp] theorem held_none : held (none : Option (Node α σ)) = [] := rfl

@[simp] theorem held_some (n : Node α σ) : held (some n) = n.toList := by simp [held]

theorem length_elems (cs : List (Node α σ)) :
    (elems cs).length = (cs.map fun c => c.toList.length).sum := by
  induction cs with
  | nil => rfl
  | cons c cs ih => rw [elems_cons, List.length_append, ih, List.map_cons, List.sum_cons]

section Total
variable [Monoid σ]

mutual

/-- The summaries of the leaves below, combined. -/
def Node.total : Node α σ → σ
  | .leaf _ s => s
  | .internal cs _ _ _ => totals cs

def totals : List (Node α σ) → σ
  | [] => 1
  | c :: cs => c.total * totals cs

end

theorem totals_append (xs ys : List (Node α σ)) : totals (xs ++ ys) = totals xs * totals ys := by
  induction xs with
  | nil => rw [List.nil_append, totals, one_mul]
  | cons x xs ih => rw [List.cons_append, totals, totals, ih, mul_assoc]

def Root.total (r : Root α σ) : σ := totals r.node.toList

end Total

section Sound
variable [Monoid σ] {leafMax : Nat}

inductive Node.Sound (leafMax : Nat) : Nat → Node α σ → Prop
  | leaf {es : List α} {s : σ} : es ≠ [] → es.length ≤ leafMax → Sound leafMax 1 (.leaf es s)
  | internal {h : Nat} {cs : List (Node α σ)} : cs ≠ [] → cs.length ≤ leafMax →
      (∀ c ∈ cs, Sound leafMax h c) →
      Sound leafMax (h + 1)
        (.internal cs (cs.map fun c => c.toList.length) (elems cs).length (totals cs))

structure Root.Sound (leafMax : Nat) (r : Root α σ) : Prop where
  node : ∀ n, r.node = some n → n.Sound leafMax r.height
  count : r.count = r.toList.length
  height : r.node = none → r.height = 0

theorem Root.sound_empty : (empty : Root α σ).Sound leafMax := ⟨nofun, rfl, fun _ => rfl⟩

namespace Node.Sound

variable {h : Nat} {n : Node α σ}

theorem count_eq (hn : n.Sound leafMax h) : n.count = n.toList.length := by
  cases hn with
  | leaf => rfl
  | internal => rfl

/-- **The cached summary is the fold of the summaries of the leaves.** -/
theorem summary_eq (hn : n.Sound leafMax h) : n.summary = n.total := by
  cases hn with
  | leaf => rfl
  | internal => rfl

theorem pos (hn : n.Sound leafMax h) : 0 < h := by
  cases hn with
  | leaf => exact Nat.one_pos
  | internal => exact Nat.succ_pos _

theorem toList_ne_nil (hn : n.Sound leafMax h) : n.toList ≠ [] := by
  induction hn with
  | leaf hne _ => exact hne
  | @internal h cs hne _ _ ih =>
    obtain ⟨c, cs, rfl⟩ := List.exists_cons_of_ne_nil hne
    exact fun h => ih c List.mem_cons_self (List.append_eq_nil_iff.mp h).1

end Node.Sound

theorem combineAll_eq {cs : List (Node α σ)} (hcs : ∀ c ∈ cs, c.summary = c.total) :
    combineAll cs = totals cs := by
  have key : ∀ (s : σ), cs.foldl (fun s c => s * c.summary) s = s * totals cs := by
    induction cs with
    | nil => exact fun s => (mul_one s).symm
    | cons c cs ih =>
      intro s
      rw [List.foldl_cons, ih fun c hc => hcs c (List.mem_cons_of_mem _ hc),
        hcs c List.mem_cons_self, totals, mul_assoc]
  rw [combineAll, key, one_mul]

omit [Monoid σ] in
theorem counts_eq {cs : List (Node α σ)} (hcs : ∀ c ∈ cs, c.count = c.toList.length)
    (hlt : (elems cs).length < 2 ^ 64) :
    cs.foldl (fun n c => (n + c.count) % 2 ^ 64) 0 = (elems cs).length := by
  have key : ∀ n, n + (elems cs).length < 2 ^ 64 →
      cs.foldl (fun n c => (n + c.count) % 2 ^ 64) n = n + (elems cs).length := by
    clear hlt
    induction cs with
    | nil => exact fun n _ => rfl
    | cons c cs ih =>
      intro n hn
      rw [elems_cons, List.length_append] at hn ⊢
      rw [List.foldl_cons, hcs c List.mem_cons_self, Nat.mod_eq_of_lt (by omega),
        ih (fun c hc => hcs c (List.mem_cons_of_mem _ hc)) _ (by omega), Nat.add_assoc]
  rw [key 0 (by omega), Nat.zero_add]

variable {h : Nat} {cs : List (Node α σ)}

/-- A node over sound children of one height caches what is below it. -/
theorem mkInternal_eq (hcs : ∀ c ∈ cs, c.Sound leafMax h) (hlt : (elems cs).length < 2 ^ 64) :
    mkInternal cs =
      .internal cs (cs.map fun c => c.toList.length) (elems cs).length (totals cs) := by
  rw [mkInternal, counts_eq (fun c hc => (hcs c hc).count_eq) hlt,
    combineAll_eq fun c hc => (hcs c hc).summary_eq,
    List.map_congr_left fun c hc => (hcs c hc).count_eq]

theorem sound_mkInternal (hne : cs ≠ []) (hlen : cs.length ≤ leafMax)
    (hcs : ∀ c ∈ cs, c.Sound leafMax h) (hlt : (elems cs).length < 2 ^ 64) :
    (mkInternal cs).Sound leafMax (h + 1) := by
  rw [mkInternal_eq hcs hlt]
  exact .internal hne hlen hcs

@[simp] theorem toList_mkInternal (cs : List (Node α σ)) : (mkInternal cs).toList = elems cs := rfl

theorem sound_mkLeaf (summarize : List α → σ) {es : List α} (hne : es ≠ [])
    (hlen : es.length ≤ leafMax) : (mkLeaf summarize es).Sound leafMax 1 :=
  .leaf hne hlen

omit [Monoid σ] in
@[simp] theorem toList_mkLeaf (summarize : List α → σ) (es : List α) :
    (mkLeaf summarize es).toList = es := rfl

/-! ### Building -/

theorem chunks_spec {β : Type} {m : Nat} (hm : 0 < m) {n : Nat} {xs : List β}
    (hn : xs.length ≤ n) :
    (chunks m n xs).flatten = xs ∧ (∀ c ∈ chunks m n xs, c ≠ [] ∧ c.length ≤ m) ∧
      m * (chunks m n xs).length < xs.length + m := by
  induction n generalizing xs with
  | zero =>
    obtain rfl : xs = [] := List.length_eq_zero_iff.mp (Nat.le_zero.mp hn)
    exact ⟨rfl, nofun, by simpa [chunks] using hm⟩
  | succ n ih =>
    cases xs with
    | nil => exact ⟨rfl, nofun, by simpa [chunks] using hm⟩
    | cons x xs =>
      have hdrop : ((x :: xs).drop m).length ≤ n := by
        rw [List.length_drop]
        omega
      obtain ⟨hflat, hall, hlen⟩ := ih hdrop
      refine ⟨?_, ?_, ?_⟩
      · rw [chunks, List.flatten_cons, hflat, List.take_append_drop]
      · rintro c hc
        obtain rfl | hc := List.mem_cons.mp hc
        · refine ⟨fun h0 => ?_, List.length_take_le _ _⟩
          have := congrArg List.length h0
          simp only [List.length_take, List.length_cons, List.length_nil] at this
          omega
        · exact hall c hc
      · rw [chunks, List.length_cons, Nat.mul_succ]
        rw [List.length_drop] at hlen
        by_cases hmx : m ≤ (x :: xs).length
        · omega
        · have h0 : (x :: xs).length - m = 0 := by omega
          have hz : m * (chunks m n ((x :: xs).drop m)).length < m * 1 := by omega
          have := Nat.lt_of_mul_lt_mul_left hz
          rw [Nat.lt_one_iff.mp this]
          simp

/-- What the levels over nodes of one height come to: `elems` are kept, and each level divides
the number of nodes by `leafMax`. -/
theorem buildUp_spec (hm : 2 ≤ leafMax) {fuel height : Nat} {ns : List (Node α σ)}
    (hne : ns ≠ []) (hfuel : ns.length ≤ fuel) (hns : ∀ n ∈ ns, n.Sound leafMax height)
    (hlt : (elems ns).length < 2 ^ 64) :
    ∃ n height', buildUp leafMax fuel height ns = some (n, height') ∧
      n.Sound leafMax height' ∧ n.toList = elems ns ∧
      ∀ d, ns.length ≤ leafMax ^ d → height' ≤ height + d := by
  induction fuel generalizing height ns with
  | zero => exact absurd (List.length_eq_zero_iff.mp (Nat.le_zero.mp hfuel)) hne
  | succ fuel ih =>
    by_cases h1 : ∃ n, ns = [n]
    · obtain ⟨n, rfl⟩ := h1
      exact ⟨n, height, rfl, hns n List.mem_cons_self, (List.append_nil _).symm,
        fun d _ => Nat.le_add_right _ _⟩
    · obtain ⟨a, b, ns', rfl⟩ : ∃ a b ns', ns = a :: b :: ns' := by
        rcases ns with _ | ⟨a, _ | ⟨b, ns'⟩⟩
        · exact absurd rfl hne
        · exact absurd ⟨a, rfl⟩ h1
        · exact ⟨a, b, ns', rfl⟩
      obtain ⟨hflat, hall, hlen⟩ :=
        chunks_spec (Nat.zero_lt_of_lt hm) (Nat.le_refl (a :: b :: ns').length)
      have helems : elems ((chunks leafMax (a :: b :: ns').length (a :: b :: ns')).map mkInternal) =
          elems (a :: b :: ns') := by
        have key : ∀ css : List (List (Node α σ)), elems (css.map mkInternal) = elems css.flatten := by
          intro css
          induction css with
          | nil => rfl
          | cons cs css ih => rw [List.map_cons, elems_cons, ih, List.flatten_cons, elems_append]; rfl
        rw [key, hflat]
      have hchild : ∀ cs ∈ chunks leafMax (a :: b :: ns').length (a :: b :: ns'),
          (∀ c ∈ cs, c.Sound leafMax height) ∧ (elems cs).length < 2 ^ 64 := by
        intro cs hcs
        have hsub : cs.Sublist (a :: b :: ns') := by
          rw [← hflat]
          exact List.sublist_flatten_of_mem hcs
        refine ⟨fun c hc => hns c (hsub.subset hc), Nat.lt_of_le_of_lt ?_ hlt⟩
        rw [length_elems, length_elems]
        exact (hsub.map _).sum_le_sum (fun _ _ => Nat.zero_le _)
      have hshort : (chunks leafMax (a :: b :: ns').length (a :: b :: ns')).length <
          (a :: b :: ns').length := by
        by_contra hge
        have hmul := Nat.mul_le_mul_left leafMax (Nat.not_lt.mp hge)
        have h2 : 2 ≤ (a :: b :: ns').length := by simp
        have hgt : leafMax + (a :: b :: ns').length ≤ leafMax * (a :: b :: ns').length :=
          Nat.add_le_mul hm h2
        omega
      obtain ⟨n, height', hbuild, hsound, hto, hbound⟩ :=
        @ih (height + 1) ((chunks leafMax _ (a :: b :: ns')).map mkInternal)
        (by
          intro h0
          rw [List.map_eq_nil_iff] at h0
          rw [h0] at hflat
          exact absurd hflat (by simp))
        (by rw [List.length_map]; omega)
        (by
          intro n hn
          obtain ⟨cs, hcs, rfl⟩ := List.mem_map.mp hn
          exact sound_mkInternal (hall cs hcs).1 (hall cs hcs).2 (hchild cs hcs).1
            (hchild cs hcs).2)
        (by rw [helems]; exact hlt)
      refine ⟨n, height', hbuild, hsound, hto.trans helems, fun d hd => ?_⟩
      cases d with
      | zero => simp at hd
      | succ d =>
        have hle : (chunks leafMax (a :: b :: ns').length (a :: b :: ns')).length ≤ leafMax ^ d := by
          rw [Nat.pow_succ, Nat.mul_comm] at hd
          by_contra hgt
          have := Nat.mul_le_mul_left leafMax (Nat.not_le.mp hgt)
          rw [Nat.mul_succ] at this
          omega
        have := hbound d (by rw [List.length_map]; exact hle)
        omega

/-! ### Reading and setting -/

omit [Monoid σ] in
theorem getIn_spec {cs : List (Node α σ)} (hcs : ∀ c ∈ cs, ∀ i, getAt c i = c.toList[i]?) (i : Nat) :
    getIn cs (cs.map fun c => c.toList.length) i = (elems cs)[i]? := by
  induction cs generalizing i with
  | nil => rfl
  | cons c cs ih =>
    rw [List.map_cons, getIn, elems_cons, List.getElem?_append]
    split
    · exact hcs c List.mem_cons_self i
    · exact ih (fun c hc => hcs c (List.mem_cons_of_mem _ hc)) _

theorem getAt_spec {h : Nat} {n : Node α σ} (hn : n.Sound leafMax h) (i : Nat) :
    getAt n i = n.toList[i]? := by
  induction hn generalizing i with
  | leaf => rfl
  | internal _ _ _ ih =>
    rw [getAt]
    exact getIn_spec ih i

/-- What setting an element does to a node, of one height before and after. -/
structure SetAs (leafMax h : Nat) (n : Node α σ) (i : Nat) (v : α) (n' : Node α σ) : Prop where
  sound : n'.Sound leafMax h
  toList : n'.toList = n.toList.set i v

variable (summarize : List α → σ)

theorem setIn_spec {h : Nat} {cs : List (Node α σ)} {v : α} (hcs : ∀ c ∈ cs, c.Sound leafMax h)
    (ih : ∀ c ∈ cs, ∀ i < c.toList.length, ∃ c', setAt summarize v c i = some c' ∧
      SetAs leafMax h c i v c') {i : Nat} (hi : i < (elems cs).length) :
    ∃ cs', setIn summarize v cs (cs.map fun c => c.toList.length) i = some cs' ∧
      (∀ c ∈ cs', c.Sound leafMax h) ∧ elems cs' = (elems cs).set i v ∧
      (cs'.map fun c => c.toList.length) = cs.map fun c => c.toList.length := by
  induction cs generalizing i with
  | nil => exact absurd hi (Nat.not_lt_zero i)
  | cons c cs ihs =>
    rw [List.map_cons, setIn]
    rw [elems_cons, List.length_append] at hi
    have htail := fun c hc => hcs c (List.mem_cons_of_mem _ hc)
    by_cases hlt : i < c.toList.length
    · obtain ⟨c', hset, hc'⟩ := ih c List.mem_cons_self i hlt
      refine ⟨c' :: cs, by rw [if_pos hlt, hset]; rfl, ?_, ?_, ?_⟩
      · rintro d hd
        obtain rfl | hd := List.mem_cons.mp hd
        · exact hc'.sound
        · exact htail d hd
      · rw [elems_cons, elems_cons, hc'.toList, List.set_append_left _ _ hlt]
      · rw [List.map_cons, hc'.toList, List.length_set]
    · obtain ⟨cs', hset, hsound, hto, hlen⟩ := ihs htail
        (fun c hc => ih c (List.mem_cons_of_mem _ hc)) (i := i - c.toList.length) (by omega)
      refine ⟨c :: cs', by rw [if_neg hlt, hset]; rfl, ?_, ?_, ?_⟩
      · rintro d hd
        obtain rfl | hd := List.mem_cons.mp hd
        · exact hcs _ List.mem_cons_self
        · exact hsound d hd
      · rw [elems_cons, elems_cons, hto, List.set_append_right _ _ (Nat.not_lt.mp hlt)]
      · rw [List.map_cons, hlen]

theorem setAt_spec {h : Nat} {n : Node α σ} {v : α} (hn : n.Sound leafMax h) {i : Nat}
    (hi : i < n.toList.length) :
    ∃ n', setAt summarize v n i = some n' ∧ SetAs leafMax h n i v n' := by
  induction hn generalizing i with
  | @leaf es s hne hlen =>
    refine ⟨mkLeaf summarize (es.set i v), if_pos hi, ?_, rfl⟩
    refine sound_mkLeaf summarize (fun h0 => hne ?_) (by rw [List.length_set]; exact hlen)
    rwa [List.set_eq_nil_iff] at h0
  | @internal h cs hne hlen hcs ih =>
    obtain ⟨cs', hset, hsound, hto, hcounts⟩ := setIn_spec summarize hcs (fun c hc i hi => ih c hc hi) hi
    refine ⟨.internal cs' (cs.map fun c => c.toList.length) (elems cs).length (combineAll cs'), ?_,
      ?_, hto⟩
    · rw [setAt, hset]
      rfl
    · have hsame : cs'.length = cs.length := by
        have := congrArg List.length hcounts
        rwa [List.length_map, List.length_map] at this
      have hn' : Node.Sound leafMax (h + 1) (.internal cs' (cs'.map fun c => c.toList.length)
          (elems cs').length (totals cs')) := by
        refine .internal (fun h0 => hne ?_) (by rw [hsame]; exact hlen) hsound
        rw [h0] at hsame
        exact List.length_eq_zero_iff.mp hsame.symm
      rw [hcounts, hto, List.length_set] at hn'
      rw [combineAll_eq fun c hc => (hsound c hc).summary_eq]
      exact hn'

/-! ### Splitting -/

/-- Nodes of one height for the two sides of a split, the left one only if it has elements. -/
structure SplitAs (leafMax h : Nat) (xs : List α) (i : Nat) (l r : Option (Node α σ)) : Prop where
  soundLeft : ∀ n ∈ l, n.Sound leafMax h
  soundRight : ∀ n ∈ r, n.Sound leafMax h
  left : held l = xs.take i
  right : held r = xs.drop i

theorem wrap_spec {h : Nat} {cs : List (Node α σ)} (hlen : cs.length ≤ leafMax)
    (hcs : ∀ c ∈ cs, c.Sound leafMax h) (hlt : (elems cs).length < 2 ^ 64) :
    (∀ n ∈ wrap cs, n.Sound leafMax (h + 1)) ∧ held (wrap cs) = elems cs := by
  cases cs with
  | nil => exact ⟨nofun, rfl⟩
  | cons c cs =>
    refine ⟨?_, held_some _⟩
    rintro n ⟨⟩
    exact sound_mkInternal nofun hlen hcs hlt

theorem splitIn_spec {h : Nat} (before : List (Node α σ)) {cs : List (Node α σ)}
    (hlen : (before ++ cs).length ≤ leafMax) (hcs : ∀ c ∈ before ++ cs, c.Sound leafMax h)
    (hlt : (elems (before ++ cs)).length < 2 ^ 64)
    (ih : ∀ c ∈ cs, ∀ i < c.toList.length, ∃ l r, splitAt summarize c i = some (l, r) ∧
      SplitAs leafMax h c.toList i l r) {i : Nat} (hi : i < (elems cs).length) :
    ∃ l r, splitIn summarize before cs (cs.map fun c => c.toList.length) i = some (l, r) ∧
      SplitAs leafMax (h + 1) (elems (before ++ cs)) ((elems before).length + i) l r := by
  induction cs generalizing before i with
  | nil => exact absurd hi (Nat.not_lt_zero i)
  | cons c cs ihs =>
    rw [elems_cons, List.length_append] at hi
    rw [List.map_cons, splitIn]
    by_cases hin : i < c.toList.length
    · obtain ⟨l, r, hsplit, hs⟩ := ih c List.mem_cons_self i hin
      have hl1 : l.toList.length ≤ 1 := by cases l <;> simp
      have hr1 : r.toList.length ≤ 1 := by cases r <;> simp
      simp only [List.length_append, List.length_cons, elems_append, elems_cons] at hlen hlt
      have hl : elems l.toList = c.toList.take i := hs.left
      have hr : elems r.toList = c.toList.drop i := hs.right
      have hcl : ∀ d ∈ before ++ l.toList, d.Sound leafMax h := by
        intro d hd
        obtain hd | hd := List.mem_append.mp hd
        · exact hcs d (List.mem_append_left _ hd)
        · exact hs.soundLeft d (Option.mem_toList.mp hd)
      have hcr : ∀ d ∈ r.toList ++ cs, d.Sound leafMax h := by
        intro d hd
        obtain hd | hd := List.mem_append.mp hd
        · exact hs.soundRight d (Option.mem_toList.mp hd)
        · exact hcs d (List.mem_append_right _ (List.mem_cons_of_mem _ hd))
      obtain ⟨hsl, hleft⟩ := wrap_spec (by rw [List.length_append]; omega) hcl
        (by rw [elems_append, hl, List.length_append, List.length_take]; omega)
      obtain ⟨hsr, hright⟩ := wrap_spec (by rw [List.length_append]; omega) hcr
        (by rw [elems_append, hr, List.length_append, List.length_drop]; omega)
      refine ⟨_, _, by rw [if_pos hin, hsplit]; rfl, hsl, hsr, ?_, ?_⟩
      · rw [hleft, elems_append, elems_append, elems_cons, hl, List.take_length_add_append,
          List.take_append_of_le_length (Nat.le_of_lt hin)]
      · rw [hright, elems_append, elems_append, elems_cons, hr, List.drop_length_add_append,
          List.drop_append_of_le_length (Nat.le_of_lt hin)]
    · have hassoc : before ++ [c] ++ cs = before ++ c :: cs := by rw [List.append_assoc]; rfl
      obtain ⟨l, r, hsplit, hs⟩ := ihs (before ++ [c]) (i := i - c.toList.length)
        (by rwa [hassoc]) (by rwa [hassoc]) (by rwa [hassoc])
        (fun d hd => ih d (List.mem_cons_of_mem _ hd)) (by omega)
      refine ⟨l, r, by rw [if_neg hin, hsplit], ?_⟩
      have hpos : (elems (before ++ [c])).length + (i - c.toList.length) =
          (elems before).length + i := by
        rw [elems_append, elems_cons, elems_nil, List.append_nil, List.length_append]
        omega
      rwa [hassoc, hpos] at hs

theorem splitAt_spec {h : Nat} {n : Node α σ} (hn : n.Sound leafMax h)
    (hlt : n.toList.length < 2 ^ 64) {i : Nat} (hi : i < n.toList.length) :
    ∃ l r, splitAt summarize n i = some (l, r) ∧ SplitAs leafMax h n.toList i l r := by
  induction hn generalizing i with
  | @leaf es s hne hlen =>
    change i < es.length at hi
    rw [splitAt, if_neg (Nat.not_le.mpr hi)]
    by_cases h0 : i = 0
    · subst h0
      refine ⟨none, some (.leaf es s), if_pos rfl, nofun, ?_, ?_, ?_⟩
      · rintro n ⟨⟩
        exact .leaf hne hlen
      · simp
      · simp [Node.toList]
    · refine ⟨_, _, if_neg h0, ?_, ?_, ?_, ?_⟩
      · rintro n ⟨⟩
        refine sound_mkLeaf summarize (fun hnil => ?_) (by rw [List.length_take]; omega)
        have := congrArg List.length hnil
        rw [List.length_take, List.length_nil] at this
        omega
      · rintro n ⟨⟩
        refine sound_mkLeaf summarize (fun hnil => ?_) (by rw [List.length_drop]; omega)
        have := congrArg List.length hnil
        rw [List.length_drop, List.length_nil] at this
        omega
      · simp [Node.toList]
      · simp [Node.toList]
  | @internal h cs hne hlen hcs ih =>
    have hbelow : ∀ c ∈ cs, c.toList.length < 2 ^ 64 := by
      intro c hc
      refine Nat.lt_of_le_of_lt ?_ hlt
      change _ ≤ (elems cs).length
      rw [length_elems]
      exact List.single_le_sum (fun _ _ => Nat.zero_le _) _
        (List.mem_map_of_mem (f := fun c => c.toList.length) hc)
    obtain ⟨l, r, hsplit, hs⟩ := splitIn_spec summarize [] hlen hcs hlt
      (fun c hc i hi => ih c hc (hbelow c hc) hi) hi
    refine ⟨l, r, hsplit, ?_⟩
    rwa [elems_nil, List.length_nil, Nat.zero_add] at hs

/-- Giving way to single children keeps the elements, and takes the height along. -/
theorem trim_spec {h : Nat} {n : Node α σ} (hn : n.Sound leafMax h) :
    (trim n h).1.Sound leafMax (trim n h).2 ∧ (trim n h).1.toList = n.toList ∧ (trim n h).2 ≤ h := by
  induction hn with
  | leaf hne hlen => exact ⟨.leaf hne hlen, rfl, Nat.le_refl _⟩
  | @internal h cs hne hlen hcs ih =>
    rcases cs with _ | ⟨c, _ | ⟨d, cs⟩⟩
    · exact absurd rfl hne
    · obtain ⟨hsound, hto, hle⟩ := ih c List.mem_cons_self
      exact ⟨hsound, hto.trans (List.append_nil _).symm, Nat.le_succ_of_le hle⟩
    · exact ⟨.internal nofun hlen hcs, rfl, Nat.le_refl _⟩

theorem trimmed_spec {h : Nat} {n : Option (Node α σ)} (hn : ∀ m ∈ n, m.Sound leafMax h)
    (count : Nat) (hc : count = (held n).length) :
    (trimmed count h n).Sound leafMax ∧ (trimmed count h n).toList = held n ∧
      (trimmed count h n).height ≤ h := by
  cases n with
  | none => exact ⟨Root.sound_empty, rfl, Nat.zero_le _⟩
  | some n =>
    obtain ⟨hsound, hto, hle⟩ := trim_spec (hn n rfl)
    have hlist : (trimmed count h (some n)).toList = held (some n) := by
      rw [Root.toList, trimmed, held_some, held_some, hto]
    refine ⟨⟨?_, ?_, nofun⟩, hlist, hle⟩
    · rintro m ⟨⟩
      exact hsound
    · rw [hlist, ← hc]
      rfl

end Sound

end Jacl.SumTree
