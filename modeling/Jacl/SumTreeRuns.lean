import Jacl.SumTreeDenotes

/-!
# Runs of sum trees

Concatenation grafts a tree where its height says, and copying a range goes from leaf to leaf;
then what every run keeps.
-/

namespace Jacl.SumTree

variable {α σ : Type} [Monoid σ] {leafMax : Nat}

/-! ### Concatenation -/

theorem Node.Sound.children {h : Nat} {n : Node α σ} (hn : n.Sound leafMax (h + 1)) (hh : 0 < h) :
    ∃ cs, n = .internal cs (cs.map fun c => c.toList.length) (elems cs).length (totals cs) ∧
      cs ≠ [] ∧ cs.length ≤ leafMax ∧ ∀ c ∈ cs, c.Sound leafMax h := by
  cases hn with
  | leaf => exact absurd hh (Nat.lt_irrefl 0)
  | internal hne hlen hcs => exact ⟨_, rfl, hne, hlen, hcs⟩

theorem Node.Sound.forms {h : Nat} {n : Node α σ} (hn : n.Sound leafMax h) :
    (∃ es s, n = .leaf es s ∧ es ≠ [] ∧ es.length ≤ leafMax ∧ h = 1) ∨
    ∃ cs ks m s, n = .internal cs ks m s ∧ cs ≠ [] ∧ cs.length ≤ leafMax ∧
      ∃ h', h = h' + 1 ∧ ∀ c ∈ cs, c.Sound leafMax h' := by
  cases hn with
  | leaf hne hlen => exact .inl ⟨_, _, rfl, hne, hlen, rfl⟩
  | internal hne hlen hcs => exact .inr ⟨_, _, _, _, rfl, hne, hlen, _, rfl, hcs⟩

theorem merge_toList {a b m : Node α σ} (hm : merge leafMax a b = some m) :
    m.toList = a.toList ++ b.toList := by
  cases a <;> cases b <;> simp only [merge, reduceCtorEq] at hm <;> split at hm <;> cases hm
  · rfl
  · exact elems_append _ _

theorem merge_spec {h : Nat} {a b m : Node α σ} (ha : a.Sound leafMax h) (hb : b.Sound leafMax h)
    (hlt : a.toList.length + b.toList.length < 2 ^ 64) (hm : merge leafMax a b = some m) :
    m.Sound leafMax h := by
  obtain ⟨es, s, rfl, hne, -, rfl⟩ | ⟨cs, ks, k, s, rfl, hne, -, h', rfl, hcs⟩ := ha.forms
  · obtain ⟨es', s', rfl, -, -, -⟩ | ⟨cs', ks', k', s', rfl, -, -, h', -, -⟩ := hb.forms
    · simp only [merge] at hm
      split at hm
      · rename_i hroom
        cases hm
        exact .leaf (fun h0 => hne (List.append_eq_nil_iff.mp h0).1)
          (by rw [List.length_append]; exact hroom)
      · cases hm
    · cases hm
  · obtain ⟨es', s', rfl, -, -, -⟩ | ⟨cs', ks', k', s', rfl, -, -, h'', heq, hcs'⟩ := hb.forms
    · cases hm
    · cases heq
      simp only [merge] at hm
      split at hm
      · rename_i hroom
        cases hm
        refine sound_mkInternal (fun h0 => hne (List.append_eq_nil_iff.mp h0).1)
          (by rw [List.length_append]; exact hroom) ?_ ?_
        · intro c hc
          obtain hc | hc := List.mem_append.mp hc
          · exact hcs c hc
          · exact hcs' c hc
        · rw [elems_append, List.length_append]
          exact hlt
      · cases hm

/-- A node, and perhaps one more, that hold `xs`. -/
structure TwoAs (leafMax h : Nat) (xs : List α) (l r : Option (Node α σ)) : Prop where
  soundLeft : ∀ n ∈ l, n.Sound leafMax h
  soundRight : ∀ n ∈ r, n.Sound leafMax h
  holds : held l ++ held r = xs

theorem divide_toList (cs : List (Node α σ)) :
    (divide leafMax cs).1.toList ++ held (divide leafMax cs).2 = elems cs := by
  rw [divide]
  split
  · exact List.append_nil _
  · rw [held_some, toList_mkInternal, toList_mkInternal, ← elems_append, List.take_append_drop]

omit [Monoid σ] in
theorem length_elems_halves (cs : List (Node α σ)) (i : Nat) :
    (elems cs).length = (elems (cs.take i)).length + (elems (cs.drop i)).length := by
  rw [← List.length_append, ← elems_append, List.take_append_drop]

/-- Children that overflow a node by one at most go under it, or under two. -/
theorem divide_spec {h : Nat} (cs : List (Node α σ)) (hm : 0 < leafMax) (hne : cs ≠ [])
    (hlen : cs.length ≤ leafMax + 1) (hcs : ∀ c ∈ cs, c.Sound leafMax h)
    (hlt : (elems cs).length < 2 ^ 64) :
    TwoAs leafMax (h + 1) (elems cs) (some (divide leafMax cs).1) (divide leafMax cs).2 := by
  refine ⟨?_, ?_, by rw [held_some]; exact divide_toList cs⟩
  · rintro n ⟨⟩
    rw [divide]
    split
    · exact sound_mkInternal hne ‹_› hcs hlt
    · have htake : (cs.take (cs.length / 2)).length = cs.length / 2 := by
        rw [List.length_take]
        omega
      refine sound_mkInternal (fun h0 => ?_) (by omega) (fun c hc => hcs c (List.mem_of_mem_take hc))
        (Nat.lt_of_le_of_lt ?_ hlt)
      · rw [h0, List.length_nil] at htake
        omega
      · rw [length_elems_halves cs (cs.length / 2)]
        exact Nat.le_add_right _ _
  · rw [divide]
    split
    · exact nofun
    · rintro n ⟨⟩
      have hdrop : (cs.drop (cs.length / 2)).length = cs.length - cs.length / 2 :=
        List.length_drop
      refine sound_mkInternal (fun h0 => ?_) (by omega) (fun c hc => hcs c (List.mem_of_mem_drop hc))
        (Nat.lt_of_le_of_lt ?_ hlt)
      · rw [h0, List.length_nil] at hdrop
        omega
      · rw [length_elems_halves cs (cs.length / 2)]
        exact Nat.le_add_left _ _

theorem graftRight_spec {h : Nat} {right n : Node α σ} (hm : 0 < leafMax)
    (hr : right.Sound leafMax h) {delta : Nat} (hn : n.Sound leafMax (h + delta))
    (hlt : n.toList.length + right.toList.length < 2 ^ 64) :
    ∃ m o, graftRight leafMax right delta n = some (m, o) ∧
      TwoAs leafMax (h + delta) (n.toList ++ right.toList) (some m) o := by
  induction delta generalizing n with
  | zero =>
    rw [graftRight]
    split
    · rename_i m hmerge
      refine ⟨m, none, rfl, ?_, nofun, ?_⟩
      · rintro k ⟨⟩
        exact merge_spec hn hr hlt hmerge
      · rw [held_some, held_none, List.append_nil, merge_toList hmerge]
    · refine ⟨n, some right, rfl, ?_, ?_, by rw [held_some, held_some]⟩
      · rintro k ⟨⟩
        exact hn
      · rintro k ⟨⟩
        exact hr
  | succ delta ih =>
    obtain ⟨cs, rfl, hne, hlen, hcs⟩ := hn.children (Nat.add_pos_left hr.pos delta)
    obtain ⟨init, last, rfl⟩ := (List.eq_nil_or_concat' cs).resolve_left hne
    have hlast := hcs last (List.mem_append_right _ List.mem_cons_self)
    have hsum : (elems init).length + last.toList.length + right.toList.length < 2 ^ 64 := by
      simpa [Node.toList] using hlt
    obtain ⟨m, o, hgraft, htwo⟩ := ih hlast (by omega)
    have ho : o.toList.length ≤ 1 := by cases o <;> simp
    have hheld : elems (init ++ [m] ++ o.toList) =
        elems init ++ (last.toList ++ right.toList) := by
      rw [← htwo.holds, elems_append, elems_append, List.append_assoc, held_some, elems_cons,
        elems_nil, List.append_nil]
      rfl
    have hdiv := divide_spec (h := h + delta) (init ++ [m] ++ o.toList) hm (by simp)
      (by
        simp only [List.length_append, List.length_singleton] at hlen ⊢
        omega)
      (by
        intro c hc
        obtain hc | hc := List.mem_append.mp hc
        · obtain hc | hc := List.mem_append.mp hc
          · exact hcs c (List.mem_append_left _ hc)
          · exact htwo.soundLeft c (by rw [List.mem_singleton.mp hc]; rfl)
        · exact htwo.soundRight c (Option.mem_toList.mp hc))
      (by
        rw [hheld]
        simp only [List.length_append]
        omega)
    refine ⟨_, _, ?_, hdiv.soundLeft, hdiv.soundRight, ?_⟩
    · rw [graftRight, List.getLast?_concat, List.dropLast_concat]
      simp only [hgraft, bind, Option.bind]
      rfl
    · rw [hdiv.holds, hheld]
      simp [Node.toList]

theorem graftLeft_spec {h : Nat} {left n : Node α σ} (hm : 0 < leafMax)
    (hl : left.Sound leafMax h) {delta : Nat} (hn : n.Sound leafMax (h + delta))
    (hlt : left.toList.length + n.toList.length < 2 ^ 64) :
    ∃ o m, graftLeft leafMax left delta n = some (o, m) ∧
      TwoAs leafMax (h + delta) (left.toList ++ n.toList) o (some m) := by
  induction delta generalizing n with
  | zero =>
    rw [graftLeft]
    split
    · rename_i m hmerge
      refine ⟨none, m, rfl, (by simp), ?_, ?_⟩
      · rintro k ⟨⟩
        exact merge_spec hl hn hlt hmerge
      · rw [held_some, held_none, List.nil_append, merge_toList hmerge]
    · refine ⟨some left, n, rfl, ?_, ?_, by rw [held_some, held_some]⟩
      · rintro k ⟨⟩
        exact hl
      · rintro k ⟨⟩
        exact hn
  | succ delta ih =>
    obtain ⟨cs, rfl, hne, hlen, hcs⟩ := hn.children (Nat.add_pos_left hl.pos delta)
    obtain ⟨first, rest, rfl⟩ := List.exists_cons_of_ne_nil hne
    have hfirst := hcs first List.mem_cons_self
    have hsum : left.toList.length + first.toList.length + (elems rest).length < 2 ^ 64 := by
      have : (Node.internal (first :: rest) ((first :: rest).map fun c => c.toList.length)
          (elems (first :: rest)).length (totals (first :: rest))).toList =
          first.toList ++ elems rest := rfl
      rw [this, List.length_append] at hlt
      omega
    obtain ⟨o, m, hgraft, htwo⟩ := ih hfirst (by omega)
    have ho : o.toList.length ≤ 1 := by cases o <;> simp
    have hheld : elems (o.toList ++ [m] ++ rest) =
        left.toList ++ first.toList ++ elems rest := by
      rw [← htwo.holds, elems_append, elems_append, held_some, elems_cons, elems_nil,
        List.append_nil]
      rfl
    have hdiv := divide_spec (h := h + delta) (o.toList ++ [m] ++ rest) hm (by simp)
      (by
        simp only [List.length_append, List.length_cons, List.length_nil] at hlen ⊢
        omega)
      (by
        intro c hc
        obtain hc | hc := List.mem_append.mp hc
        · obtain hc | hc := List.mem_append.mp hc
          · exact htwo.soundLeft c (Option.mem_toList.mp hc)
          · exact htwo.soundRight c (by rw [List.mem_singleton.mp hc]; rfl)
        · exact hcs c (List.mem_cons_of_mem _ hc))
      (by
        rw [hheld]
        simp only [List.length_append]
        omega)
    have hwhole : left.toList ++ first.toList ++ elems rest = left.toList ++
        (Node.internal (first :: rest) ((first :: rest).map fun c => c.toList.length)
          (elems (first :: rest)).length (totals (first :: rest))).toList :=
      List.append_assoc _ _ _
    have hgo : ∀ d, divide leafMax (o.toList ++ [m] ++ rest) = d →
        graftLeft leafMax left (delta + 1)
          (Node.internal (first :: rest) ((first :: rest).map fun c => c.toList.length)
            (elems (first :: rest)).length (totals (first :: rest))) =
        some (d.2.elim (none, d.1) fun r => (some d.1, r)) := by
      rintro ⟨d1, _ | d2⟩ hd <;>
        rw [graftLeft] <;>
        simp only [List.head?_cons, hgraft, bind, Option.bind, List.tail_cons, hd, Option.elim] <;>
        rfl
    rw [hgo _ rfl]
    rw [hheld, hwhole] at hdiv
    obtain ⟨d, hd⟩ : ∃ d, d = divide leafMax (o.toList ++ [m] ++ rest) := ⟨_, rfl⟩
    rw [← hd] at hdiv ⊢
    obtain ⟨d1, _ | d2⟩ := d
    · refine ⟨none, d1, rfl, (by simp), hdiv.soundLeft, ?_⟩
      have := hdiv.holds
      rwa [held_none, List.append_nil] at this
    · exact ⟨some d1, d2, rfl, hdiv.soundLeft, hdiv.soundRight, hdiv.holds⟩

omit [Monoid σ] in
theorem Root.toList_some {r : Root α σ} {n : Node α σ} (hn : r.node = some n) :
    r.toList = n.toList := by
  rw [Root.toList, hn, held_some]

/-- A root that holds `xs`, in a tree that is sound. -/
structure RootAs (leafMax : Nat) (xs : List α) (r : Root α σ) : Prop where
  sound : r.Sound leafMax
  toList : r.toList = xs

theorem rootAs_node {h : Nat} {n : Node α σ} {count : Nat} (hn : n.Sound leafMax h)
    (hc : count = n.toList.length) : RootAs leafMax n.toList ⟨some n, count, h⟩ := by
  have hlist : (Root.mk (some n) count h).toList = n.toList := held_some n
  refine ⟨⟨?_, by rw [hlist]; exact hc, nofun⟩, hlist⟩
  rintro m ⟨⟩
  exact hn

theorem TwoAs.one {h : Nat} {xs : List α} {l r : Option (Node α σ)} {n : Node α σ}
    (htwo : TwoAs leafMax h xs l r) (hone : l = some n ∧ r = none ∨ l = none ∧ r = some n) :
    RootAs leafMax xs ⟨some n, xs.length, h⟩ := by
  have hn : n.Sound leafMax h ∧ n.toList = xs := by
    obtain ⟨rfl, rfl⟩ | ⟨rfl, rfl⟩ := hone
    · exact ⟨htwo.soundLeft n rfl, by simpa using htwo.holds⟩
    · exact ⟨htwo.soundRight n rfl, by simpa using htwo.holds⟩
  rw [← hn.2]
  exact rootAs_node hn.1 rfl

/-- With an overflow, a root over both nodes, one level up. -/
theorem TwoAs.rootOver {h : Nat} {xs : List α} {a b : Node α σ} (hm : 2 ≤ leafMax)
    (htwo : TwoAs leafMax h xs (some a) (some b)) (hlt : xs.length < 2 ^ 64) :
    RootAs leafMax xs ⟨some (mkInternal [a, b]), xs.length, h + 1⟩ := by
  have hlist : (mkInternal [a, b]).toList = xs := by
    rw [← htwo.holds]
    simp
  have hs : (mkInternal [a, b]).Sound leafMax (h + 1) := by
    refine sound_mkInternal nofun hm ?_ ?_
    · rintro c hc
      obtain rfl | hc := List.mem_cons.mp hc
      · exact htwo.soundLeft _ rfl
      · rw [List.mem_singleton.mp hc]
        exact htwo.soundRight _ rfl
    · rw [← toList_mkInternal, hlist]
      exact hlt
  rw [← hlist]
  exact rootAs_node hs rfl

/-- The levels that a graft goes down fit in its path. -/
def Reaches (left right : Root α σ) : Prop :=
  left.height - right.height < pathMax ∧ right.height - left.height < pathMax

theorem concat_spec {left right : Root α σ} (hm : 2 ≤ leafMax) (hl : left.Sound leafMax)
    (hr : right.Sound leafMax) (hlt : left.toList.length + right.toList.length < 2 ^ 64)
    (hd : left.node = none ∨ right.node = none ∨ Reaches left right) :
    ∃ t, concat leafMax left right = some t ∧ RootAs leafMax (left.toList ++ right.toList) t := by
  obtain ⟨_ | ln, lcount, lheight⟩ := left
  · exact ⟨right, rfl, hr, rfl⟩
  obtain ⟨_ | rn, rcount, rheight⟩ := right
  · exact ⟨_, rfl, hl, by simp [Root.toList]⟩
  have hln : ln.Sound leafMax lheight := hl.node ln rfl
  have hrn : rn.Sound leafMax rheight := hr.node rn rfl
  have hlist : ∀ (n : Node α σ) c h, (Root.mk (some n) c h).toList = n.toList :=
    fun n _ _ => held_some n
  have hcount : (lcount + rcount) % 2 ^ 64 = (ln.toList ++ rn.toList).length := by
    have hlc : lcount = _ := hl.count
    have hrc : rcount = _ := hr.count
    rw [hlist] at hlc hrc
    rw [hlist, hlist] at hlt
    rw [List.length_append, hlc, hrc, Nat.mod_eq_of_lt hlt]
  rw [hlist, hlist] at hlt ⊢
  have hlt' : (ln.toList ++ rn.toList).length < 2 ^ 64 := by
    rw [List.length_append]
    exact hlt
  obtain ⟨hd1, hd2⟩ : Reaches (Root.mk (some ln) lcount lheight) ⟨some rn, rcount, rheight⟩ := by
    obtain h | h | h := hd
    · cases h
    · cases h
    · exact h
  change lheight - rheight < pathMax at hd1
  change rheight - lheight < pathMax at hd2
  simp only [concat, hcount]
  by_cases heq : lheight = rheight
  · subst heq
    rw [if_pos rfl]
    cases hmerge : merge leafMax ln rn with
    | some m =>
      refine ⟨_, rfl, ?_⟩
      rw [← merge_toList hmerge]
      exact rootAs_node (merge_spec hln hrn hlt hmerge) rfl
    | none =>
      have htwo : TwoAs leafMax lheight (ln.toList ++ rn.toList) (some ln) (some rn) := by
        refine ⟨?_, ?_, by rw [held_some, held_some]⟩
        · rintro n ⟨⟩
          exact hln
        · rintro n ⟨⟩
          exact hrn
      exact ⟨_, rfl, htwo.rootOver hm hlt'⟩
  · rw [if_neg heq]
    by_cases hgt : rheight < lheight
    · have hh : rheight + (lheight - rheight) = lheight := by omega
      obtain ⟨m, o, hgraft, htwo⟩ := graftRight_spec (Nat.zero_lt_of_lt hm) hrn
        (by rw [hh]; exact hln) hlt
      rw [hh] at htwo
      rw [if_pos hgt, if_neg (Nat.not_le.mpr hd1), hgraft]
      cases o with
      | none => exact ⟨_, rfl, htwo.one (.inl ⟨rfl, rfl⟩)⟩
      | some o => exact ⟨_, rfl, htwo.rootOver hm hlt'⟩
    · have hh : lheight + (rheight - lheight) = rheight := by omega
      obtain ⟨o, m, hgraft, htwo⟩ := graftLeft_spec (Nat.zero_lt_of_lt hm) hln
        (by rw [hh]; exact hrn) hlt
      rw [hh] at htwo
      rw [if_neg hgt, if_neg (Nat.not_le.mpr hd2), hgraft]
      cases o with
      | none => exact ⟨_, rfl, htwo.one (.inr ⟨rfl, rfl⟩)⟩
      | some o => exact ⟨_, rfl, htwo.rootOver hm hlt'⟩

theorem concat_reaches {left right t : Root α σ} (ht : concat leafMax left right = some t) :
    left.node = none ∨ right.node = none ∨ Reaches left right := by
  obtain ⟨_ | ln, lcount, lheight⟩ := left
  · exact .inl rfl
  obtain ⟨_ | rn, rcount, rheight⟩ := right
  · exact .inr (.inl rfl)
  refine .inr (.inr ?_)
  simp only [concat] at ht
  simp only [Reaches]
  by_cases heq : lheight = rheight
  · rw [heq, Nat.sub_self]
    exact ⟨Nat.succ_pos _, Nat.succ_pos _⟩
  rw [if_neg heq] at ht
  by_contra hfar
  by_cases hgt : rheight < lheight
  · rw [if_pos hgt, if_pos (by omega)] at ht
    cases ht
  · rw [if_neg hgt, if_pos (by omega)] at ht
    cases ht

/-! ### Building, reading, setting and splitting -/

variable (summarize : List α → σ)

theorem fromArray_spec (hm : 2 ≤ leafMax) (es : List α) (hlt : es.length < 2 ^ 64) :
    ∃ r, fromArray leafMax summarize es = some r ∧ RootAs leafMax es r ∧
      ∀ d, es.length ≤ leafMax ^ (d + 1) → r.height ≤ d + 1 := by
  rw [fromArray]
  by_cases hnil : es = []
  · exact ⟨_, if_pos hnil, ⟨Root.sound_empty, hnil.symm⟩, fun _ _ => Nat.zero_le _⟩
  · obtain ⟨hflat, hall, hlen⟩ := chunks_spec (Nat.zero_lt_of_lt hm) (Nat.le_refl es.length)
    obtain ⟨leaves, hleaves⟩ : ∃ l, l = (chunks leafMax es.length es).map (mkLeaf summarize) :=
      ⟨_, rfl⟩
    have helems : elems leaves = es := by
      have key : ∀ css : List (List α), elems (css.map (mkLeaf summarize)) = css.flatten := by
        intro css
        induction css with
        | nil => rfl
        | cons cs css ih => rw [List.map_cons, elems_cons, ih, List.flatten_cons, toList_mkLeaf]
      rw [hleaves, key, hflat]
    have hsound : ∀ n ∈ leaves, n.Sound leafMax 1 := by
      intro n hn
      rw [hleaves] at hn
      obtain ⟨c, hc, rfl⟩ := List.mem_map.mp hn
      exact sound_mkLeaf summarize (hall c hc).1 (hall c hc).2
    have hne : leaves ≠ [] := by
      rintro rfl
      exact hnil helems.symm
    obtain ⟨n, height, hbuild, hn, hto, hbound⟩ :=
      buildUp_spec hm hne (Nat.le_refl _) hsound (by rw [helems]; exact hlt)
    rw [helems] at hto
    refine ⟨⟨some n, es.length, height⟩, ?_, ?_, fun d hd => ?_⟩
    · rw [if_neg hnil, ← hleaves]
      simp only [hbuild, bind, Option.bind]
      rfl
    · rw [← hto]
      exact rootAs_node hn rfl
    · have hcount : leaves.length ≤ leafMax ^ d := by
        rw [hleaves, List.length_map]
        rw [Nat.pow_succ, Nat.mul_comm] at hd
        by_contra hgt
        have := Nat.mul_le_mul_left leafMax (Nat.not_le.mp hgt)
        rw [Nat.mul_succ] at this
        omega
      have := hbound d hcount
      change height ≤ d + 1
      omega

theorem get_spec {r : Root α σ} (hr : r.Sound leafMax) (i : Nat) : get r i = r.toList[i]? := by
  obtain ⟨_ | n, count, height⟩ := r
  · rfl
  · rw [Root.toList, held_some]
    have hcount : count = n.toList.length := by
      have : count = _ := hr.count
      rwa [Root.toList, held_some] at this
    simp only [get]
    split
    · rw [List.getElem?_eq_none (by omega)]
    · exact getAt_spec (hr.node n rfl) i

/-- Setting within bounds; out of bounds the result is the empty tree. -/
theorem set_spec {r : Root α σ} (hr : r.Sound leafMax) (i : Nat) (v : α) :
    (r.toList.length ≤ i → set summarize r i v = some empty) ∧
    (i < r.toList.length → r.height ≤ pathMax + 1 →
      ∃ r', set summarize r i v = some r' ∧ RootAs leafMax (r.toList.set i v) r' ∧
        r'.height = r.height) := by
  obtain ⟨_ | n, count, height⟩ := r
  · exact ⟨fun _ => rfl, fun h => absurd h (Nat.not_lt_zero i)⟩
  · have hcount : count = n.toList.length := by
      have : count = _ := hr.count
      rwa [Root.toList, held_some] at this
    rw [Root.toList, held_some]
    simp only [set]
    refine ⟨fun hi => if_pos (by omega), fun hi hh => ?_⟩
    obtain ⟨n', hset, hn'⟩ := setAt_spec summarize (v := v) (hr.node n rfl) hi
    rw [if_neg (by omega), if_neg (by omega), hset]
    refine ⟨_, rfl, ?_, rfl⟩
    rw [← hn'.toList]
    exact rootAs_node hn'.sound (by rw [hn'.toList, List.length_set, hcount])

/-- Splitting at most at the end; beyond, it fails. -/
theorem split_spec {r : Root α σ} (hr : r.Sound leafMax) (hlt : r.toList.length < 2 ^ 64)
    (i : Nat) :
    (r.toList.length < i → split summarize r i = some none) ∧
    (i ≤ r.toList.length → r.height ≤ pathMax + 1 →
      ∃ left right, split summarize r i = some (some (left, right)) ∧
        RootAs leafMax (r.toList.take i) left ∧ RootAs leafMax (r.toList.drop i) right ∧
        left.height ≤ r.height ∧ right.height ≤ r.height) := by
  have hcount := hr.count
  simp only [split]
  refine ⟨fun hi => if_pos (by omega), fun hi hh => ?_⟩
  rw [if_neg (by omega)]
  by_cases h0 : i = 0
  · subst h0
    exact ⟨_, _, if_pos rfl, ⟨Root.sound_empty, rfl⟩, ⟨hr, rfl⟩, Nat.zero_le _, Nat.le_refl _⟩
  rw [if_neg h0]
  by_cases hend : i = r.count
  · rw [if_pos hend]
    refine ⟨_, _, rfl, ⟨hr, ?_⟩, ⟨Root.sound_empty, ?_⟩, Nat.le_refl _, Nat.zero_le _⟩
    · rw [List.take_of_length_le (by omega)]
    · rw [List.drop_of_length_le (by omega)]
      rfl
  rw [if_neg hend, if_neg (by omega)]
  obtain ⟨_ | n, count, height⟩ := r
  · exact absurd hi (by simp [Root.toList]; omega)
  · rw [Root.toList, held_some] at hi hlt hcount ⊢
    obtain ⟨l, r, hsplit, hs⟩ := splitAt_spec summarize (hr.node n rfl) hlt
      (i := i) (by change count = _ at hcount; change i ≠ count at hend; omega)
    obtain ⟨hls, hlt, hlh⟩ := trimmed_spec hs.soundLeft i
      (by rw [hs.left, List.length_take]; omega)
    obtain ⟨hrs, hrt, hrh⟩ := trimmed_spec hs.soundRight (count - i)
      (by rw [hs.right, List.length_drop]; change count = _ at hcount; omega)
    refine ⟨_, _, ?_, ⟨hls, hlt.trans hs.left⟩, ⟨hrs, hrt.trans hs.right⟩, hlh, hrh⟩
    simp only [bind, Option.bind, hsplit]
    rfl

/-! ### Copying a range -/

/-- The nodes on the right of a path are sound, each at its height. -/
def PathSound (leafMax : Nat) (path : List (List (Node α σ))) : Prop :=
  ∀ cs ∈ path, ∀ c ∈ cs, ∃ h, c.Sound leafMax h

theorem PathSound.cons {h : Nat} {cs : List (Node α σ)} {path : List (List (Node α σ))}
    (hcs : ∀ c ∈ cs, c.Sound leafMax h) (hpath : PathSound leafMax path) :
    PathSound leafMax (cs :: path) := by
  intro ds hds
  obtain rfl | hds := List.mem_cons.mp hds
  · exact fun c hc => ⟨h, hcs c hc⟩
  · exact hpath ds hds

theorem findLeafIn_spec {h : Nat} {cs : List (Node α σ)} {path : List (List (Node α σ))}
    (hcs : ∀ c ∈ cs, c.Sound leafMax h) (hpath : PathSound leafMax path)
    (ih : ∀ c ∈ cs, ∀ i < c.toList.length, ∀ path, PathSound leafMax path →
      ∃ es j path', findLeaf c i path = some (es, j, path') ∧ j < es.length ∧
        PathSound leafMax path' ∧
        es.drop j ++ elems path'.flatten = c.toList.drop i ++ elems path.flatten)
    {i : Nat} (hi : i < (elems cs).length) :
    ∃ es j path', findLeafIn cs (cs.map fun c => c.toList.length) i path = some (es, j, path') ∧
      j < es.length ∧ PathSound leafMax path' ∧
      es.drop j ++ elems path'.flatten = (elems cs).drop i ++ elems path.flatten := by
  induction cs generalizing i with
  | nil => exact absurd hi (Nat.not_lt_zero i)
  | cons c cs ihs =>
    rw [elems_cons, List.length_append] at hi
    rw [List.map_cons, findLeafIn, elems_cons]
    have htail := fun c hc => hcs c (List.mem_cons_of_mem _ hc)
    by_cases hin : i < c.toList.length
    · obtain ⟨es, j, path', hfind, hj, hp, hto⟩ :=
        ih c List.mem_cons_self i hin (cs :: path) (hpath.cons htail)
      refine ⟨es, j, path', by rw [if_pos hin, hfind], hj, hp, ?_⟩
      rw [hto, List.flatten_cons, elems_append, List.drop_append_of_le_length (Nat.le_of_lt hin),
        List.append_assoc]
    · obtain ⟨es, j, path', hfind, hj, hp, hto⟩ := ihs htail
        (fun d hd => ih d (List.mem_cons_of_mem _ hd)) (i := i - c.toList.length) (by omega)
      refine ⟨es, j, path', by rw [if_neg hin, hfind], hj, hp, ?_⟩
      rw [hto, List.drop_append, List.drop_of_length_le (Nat.not_lt.mp hin), List.nil_append]

theorem findLeaf_spec {h : Nat} {n : Node α σ} (hn : n.Sound leafMax h) {i : Nat}
    (hi : i < n.toList.length) (path : List (List (Node α σ))) (hpath : PathSound leafMax path) :
    ∃ es j path', findLeaf n i path = some (es, j, path') ∧ j < es.length ∧
      PathSound leafMax path' ∧
      es.drop j ++ elems path'.flatten = n.toList.drop i ++ elems path.flatten := by
  induction hn generalizing i path with
  | leaf => exact ⟨_, i, path, rfl, hi, hpath, rfl⟩
  | @internal h cs _ _ hcs ih =>
    exact findLeafIn_spec hcs hpath (fun c hc i hi path hp => ih c hc hi path hp) hi

theorem leftmostLeaf_spec {h : Nat} {n : Node α σ} (hn : n.Sound leafMax h)
    {path : List (List (Node α σ))} (hpath : PathSound leafMax path) :
    ∃ es path', leftmostLeaf n path = some (es, path') ∧ es ≠ [] ∧ PathSound leafMax path' ∧
      es ++ elems path'.flatten = n.toList ++ elems path.flatten := by
  induction hn generalizing path with
  | leaf hne _ => exact ⟨_, path, rfl, hne, hpath, rfl⟩
  | @internal h cs hne _ hcs ih =>
    obtain ⟨c, cs, rfl⟩ := List.exists_cons_of_ne_nil hne
    obtain ⟨es, path', hleft, hes, hp, hto⟩ := ih c List.mem_cons_self
      (hpath.cons fun c hc => hcs c (List.mem_cons_of_mem _ hc))
    refine ⟨es, path', by rw [leftmostLeaf, hleft], hes, hp, ?_⟩
    rw [hto, List.flatten_cons, elems_append, ← List.append_assoc]
    rfl

/-- The next leaf is not empty, and there is none only where the path holds nothing more. -/
theorem nextLeaf_spec {path : List (List (Node α σ))} (hpath : PathSound leafMax path) :
    (nextLeaf path = some none ∧ elems path.flatten = []) ∨
    ∃ es path', nextLeaf path = some (some (es, path')) ∧ es ≠ [] ∧ PathSound leafMax path' ∧
      es ++ elems path'.flatten = elems path.flatten := by
  induction path with
  | nil => exact .inl ⟨rfl, rfl⟩
  | cons cs path ih =>
    have htail : PathSound leafMax path := fun ds hds => hpath ds (List.mem_cons_of_mem _ hds)
    cases cs with
    | nil => exact ih htail
    | cons c cs =>
      obtain ⟨h, hc⟩ := hpath (c :: cs) List.mem_cons_self c List.mem_cons_self
      have hrest : PathSound leafMax (cs :: path) := by
        intro ds hds
        obtain rfl | hds := List.mem_cons.mp hds
        · exact fun d hd => hpath _ List.mem_cons_self d (List.mem_cons_of_mem _ hd)
        · exact htail ds hds
      obtain ⟨es, path', hleft, hes, hp, hto⟩ := leftmostLeaf_spec hc hrest
      refine .inr ⟨es, path', by rw [nextLeaf, hleft]; rfl, hes, hp, ?_⟩
      rw [hto, List.flatten_cons, List.flatten_cons, List.cons_append, elems_cons]

theorem copyLoop_spec {fuel remaining : Nat} (hle : remaining ≤ fuel)
    {path : List (List (Node α σ))} (hpath : PathSound leafMax path) :
    copyLoop fuel remaining path = some ((elems path.flatten).take remaining) := by
  induction fuel generalizing remaining path with
  | zero =>
    obtain rfl := Nat.le_zero.mp hle
    rfl
  | succ fuel ih =>
    cases remaining with
    | zero => rfl
    | succ remaining =>
      rw [copyLoop]
      obtain ⟨hnext, hnil⟩ | ⟨es, path', hnext, hes, hp, hto⟩ := nextLeaf_spec hpath
      · rw [hnext, hnil]
        rfl
      · have hpos := List.length_pos_iff.mpr hes
        rw [hnext, ← hto, List.take_append]
        simp only [bind, Option.bind]
        rw [ih (by omega) hp]
        rfl

theorem copyRange_spec {r : Root α σ} (hr : r.Sound leafMax) (hh : r.height ≤ pathMax + 1)
    (start n : Nat) : copyRange r start n = some ((r.toList.drop start).take n) := by
  obtain ⟨_ | node, count, height⟩ := r
  · simp [copyRange, Root.toList]
  · have hcount : count = node.toList.length := by
      have : count = _ := hr.count
      rwa [Root.toList, held_some] at this
    rw [Root.toList, held_some]
    simp only [copyRange]
    by_cases hout : count ≤ start ∨ n = 0
    · rw [if_pos hout]
      obtain hout | rfl := hout
      · rw [List.drop_of_length_le (by omega), List.take_nil]
      · rw [List.take_zero]
    · rw [if_neg hout, if_neg (Nat.not_lt.mpr (by change height ≤ _ at hh; omega))]
      obtain ⟨es, j, path, hfind, hj, hp, hto⟩ :=
        findLeaf_spec (hr.node node rfl) (i := start) (by omega) [] (by rintro x ⟨⟩)
      rw [List.flatten_nil, elems_nil, List.append_nil] at hto
      have hclip : ∀ k, (k = n ∨ k = count - start ∧ k ≤ n) →
          (node.toList.drop start).take k = (node.toList.drop start).take n := by
        rintro k (rfl | ⟨rfl, hk⟩)
        · rfl
        · rw [List.take_of_length_le (by rw [List.length_drop]; omega),
            List.take_of_length_le (by rw [List.length_drop]; omega)]
      rw [← hclip (if count < (start + n) % 2 ^ 64 then count - start else n)
        (by have := Nat.mod_le (start + n) (2 ^ 64); split <;> omega)]
      simp only [bind, Option.bind, hfind]
      rw [copyLoop_spec (Nat.le_refl _) hp, ← hto, List.take_append, List.length_drop]
      rfl

/-! ### Runs -/

/-- A concatenation that comes to fewer elements than a count can say. -/
def Fits (left right : Root α σ) : Prop := left.toList.length + right.toList.length < 2 ^ 64

/-- A sound tree whose count is exact. -/
def Exact (leafMax : Nat) (r : Root α σ) : Prop := r.Sound leafMax ∧ r.toList.length < 2 ^ 64

variable {summarize}

theorem exact_empty : Exact leafMax (empty : Root α σ) := ⟨Root.sound_empty, Nat.two_pow_pos 64⟩

theorem exact_fromArray (hm : 2 ≤ leafMax) {es : List α} {r : Root α σ} (hlt : es.length < 2 ^ 64)
    (h : fromArray leafMax summarize es = some r) : Exact leafMax r := by
  obtain ⟨r', h', hr', -⟩ := fromArray_spec summarize hm es hlt
  obtain rfl := Option.some.inj (h'.symm.trans h)
  exact ⟨hr'.sound, by rw [hr'.toList]; exact hlt⟩

theorem exact_set {r r' : Root α σ} (hr : Exact leafMax r) {i : Nat} {v : α}
    (h : set summarize r i v = some r') : Exact leafMax r' := by
  by_cases hi : i < r.toList.length
  · have hh : r.height ≤ pathMax + 1 := by
      obtain ⟨_ | n, count, height⟩ := r
      · exact absurd hi (Nat.not_lt_zero i)
      · have hcount : count = _ := hr.1.count
        simp only [set] at h
        rw [if_neg (by omega)] at h
        by_contra hgt
        change ¬ height ≤ _ at hgt
        rw [if_pos (by omega)] at h
        cases h
    obtain ⟨r'', h', hr', -⟩ := (set_spec summarize hr.1 i v).2 hi hh
    obtain rfl := Option.some.inj (h'.symm.trans h)
    exact ⟨hr'.sound, by rw [hr'.toList, List.length_set]; exact hr.2⟩
  · obtain rfl := Option.some.inj
      (((set_spec summarize hr.1 i v).1 (Nat.not_lt.mp hi)).symm.trans h)
    exact exact_empty

theorem exact_split {r left right : Root α σ} (hr : Exact leafMax r) {i : Nat}
    (h : split summarize r i = some (some (left, right))) :
    Exact leafMax left ∧ Exact leafMax right := by
  by_cases hi : i ≤ r.toList.length
  · by_cases hedge : i = 0 ∨ i = r.count
    · simp only [split] at h
      have hcount := hr.1.count
      rw [if_neg (by omega)] at h
      by_cases h0 : i = 0
      · rw [if_pos h0] at h
        cases h
        exact ⟨exact_empty, hr⟩
      · rw [if_neg h0, if_pos (by omega)] at h
        cases h
        exact ⟨hr, exact_empty⟩
    · have hh : r.height ≤ pathMax + 1 := by
        simp only [split] at h
        have hcount := hr.1.count
        rw [if_neg (by omega), if_neg (by omega), if_neg (by omega)] at h
        by_contra hgt
        rw [if_pos (by omega)] at h
        cases h
      obtain ⟨l, r', h', hl, hr', -⟩ := (split_spec summarize hr.1 hr.2 i).2 hi hh
      have heq := (Prod.mk.inj (Option.some.inj (Option.some.inj (h'.symm.trans h))))
      obtain ⟨rfl, rfl⟩ := heq
      refine ⟨⟨hl.sound, ?_⟩, hr'.sound, ?_⟩
      · rw [hl.toList, List.length_take]
        exact Nat.lt_of_le_of_lt (Nat.min_le_right _ _) hr.2
      · rw [hr'.toList, List.length_drop]
        exact Nat.lt_of_le_of_lt (Nat.sub_le _ _) hr.2
  · rw [(split_spec summarize hr.1 hr.2 i).1 (Nat.not_le.mp hi)] at h
    cases h

theorem exact_concat (hm : 2 ≤ leafMax) {left right r : Root α σ} (hl : Exact leafMax left)
    (hr : Exact leafMax right) (hfits : Fits left right)
    (h : concat leafMax left right = some r) : Exact leafMax r := by
  obtain ⟨r', h', hr'⟩ := concat_spec hm hl.1 hr.1 hfits (concat_reaches h)
  obtain rfl := Option.some.inj (h'.symm.trans h)
  refine ⟨hr'.sound, ?_⟩
  rw [hr'.toList, List.length_append]
  exact hfits

/-- **Every run keeps the trees sound.** -/
theorem Made.exact (hm : 2 ≤ leafMax) {r : Root α σ} (hr : Made leafMax summarize Fits r) :
    Exact leafMax r := by
  have hsingle : ∀ {v : α} {single : Root α σ},
      SumTree.fromArray leafMax summarize [v] = some single → Exact leafMax single :=
    fun h => exact_fromArray hm (Nat.one_lt_two_pow (by decide)) h
  induction hr with
  | empty => exact exact_empty
  | fromArray hlt h => exact exact_fromArray hm hlt h
  | set _ h ih => exact exact_set ih h
  | splitLeft _ h ih => exact (exact_split ih h).1
  | splitRight _ h ih => exact (exact_split ih h).2
  | concat _ _ hok h ihl ihr => exact exact_concat hm ihl ihr hok h
  | pushBack _ hone hok h ih =>
    rw [SumTree.pushBack, hone] at h
    exact exact_concat hm ih (hsingle hone) hok h
  | pushFront _ hone hok h ih =>
    rw [SumTree.pushFront, hone] at h
    exact exact_concat hm (hsingle hone) ih hok h

/-- **A tree that a run made, of a height that the paths hold, is a list to every operation.** -/
theorem made_denotes (hm : 2 ≤ leafMax) {r : Root α σ} (hr : Made leafMax summarize Fits r)
    (hh : r.height ≤ pathMax) :
    r.Sound leafMax ∧ (∀ n ∈ r.node, n.summary = r.total) ∧
    (∀ i, get r i = r.toList[i]?) ∧
    (∀ i v, ∃ r', set summarize r i v = some r' ∧
      if i < r.toList.length then r'.toList = r.toList.set i v else r' = empty) ∧
    (∀ i, if i ≤ r.toList.length then
        ∃ left right, split summarize r i = some (some (left, right)) ∧
          left.toList = r.toList.take i ∧ right.toList = r.toList.drop i
      else split summarize r i = some none) ∧
    (∀ start n, copyRange r start n = some ((r.toList.drop start).take n)) ∧
    ∀ q : Root α σ, Made leafMax summarize Fits q → q.height ≤ pathMax → Fits r q →
      ∃ t, concat leafMax r q = some t ∧ t.toList = r.toList ++ q.toList := by
  obtain ⟨hs, hlt⟩ := hr.exact hm
  have hh1 : r.height ≤ pathMax + 1 := Nat.le_succ_of_le hh
  refine ⟨hs, fun n hn => ?_, get_spec hs, fun i v => ?_, fun i => ?_, copyRange_spec hs hh1,
    fun q hq hqh hfits => ?_⟩
  · rw [(hs.node n hn).summary_eq, Root.total, show r.node = some n from hn]
    exact (mul_one _).symm
  · obtain ⟨hout, hin⟩ := set_spec summarize hs i v
    split
    · obtain ⟨r', hset, hr', -⟩ := hin ‹_› hh1
      exact ⟨r', hset, hr'.toList⟩
    · exact ⟨empty, hout (by omega), rfl⟩
  · obtain ⟨hout, hin⟩ := split_spec summarize hs hlt i
    split
    · obtain ⟨left, right, hsplit, hl, hr', -⟩ := hin ‹_› hh1
      exact ⟨left, right, hsplit, hl.toList, hr'.toList⟩
    · exact hout (by omega)
  · have hreach : r.node = none ∨ q.node = none ∨ Reaches r q := by
      by_cases hn : r.node = none
      · exact .inl hn
      by_cases hn' : q.node = none
      · exact .inr (.inl hn')
      obtain ⟨n, hn⟩ := Option.ne_none_iff_exists'.mp hn
      obtain ⟨n', hn'⟩ := Option.ne_none_iff_exists'.mp hn'
      have hpos := (hs.node n hn).pos
      have hpos' := ((hq.exact hm).1.node n' hn').pos
      exact .inr (.inr ⟨by omega, by omega⟩)
    obtain ⟨t, hconcat, ht⟩ := concat_spec hm hs (hq.exact hm).1 hfits hreach
    exact ⟨t, hconcat, ht.toList⟩

theorem made_denotes_three :
    ∃ r : Root Nat Unit, fromArray 2 (fun _ => ()) [5, 6, 7] = some r ∧ get r 2 = some 7 := by
  obtain ⟨r, hr, hlist, hh⟩ := fromArray_spec (fun _ : List Nat => ()) (Nat.le_refl 2) [5, 6, 7]
    (by decide)
  refine ⟨r, hr, ?_⟩
  have hget := (made_denotes (Nat.le_refl 2) (.fromArray (by decide) hr)
    (Nat.le_trans (hh 1 (by decide)) (by decide))).2.2.1 2
  rw [hget, hlist.toList]
  rfl

/-- Two elements, and what they come to when the tree is concatenated with itself `k` times. -/
def doubled (leafMax : Nat) (summarize : List α → σ) (a : α) : Nat → Option (Root α σ)
  | 0 => fromArray leafMax summarize [a, a]
  | k + 1 => do
    let r ← doubled leafMax summarize a k
    concat leafMax r r

variable (leafMax) in
theorem concat_self (n : Node α σ) (count height : Nat) :
    ∃ m height', concat leafMax ⟨some n, count, height⟩ ⟨some n, count, height⟩ =
        some ⟨some m, (count + count) % 2 ^ 64, height'⟩ ∧
      m.toList = n.toList ++ n.toList ∧ height' ≤ height + 1 := by
  simp only [concat, if_pos]
  cases hmerge : merge leafMax n n with
  | some m => exact ⟨m, height, rfl, merge_toList hmerge, Nat.le_succ _⟩
  | none => exact ⟨_, height + 1, rfl, by simp, Nat.le_refl _⟩

variable (leafMax summarize) in
theorem doubled_spec (hm : 2 ≤ leafMax) (a : α) (k : Nat) :
    ∃ n height, doubled leafMax summarize a k = some ⟨some n, 2 ^ (k + 1) % 2 ^ 64, height⟩ ∧
      Made leafMax summarize (fun _ _ => True) ⟨some n, 2 ^ (k + 1) % 2 ^ 64, height⟩ ∧
      n.toList.length = 2 ^ (k + 1) ∧ height ≤ k + 1 := by
  induction k with
  | zero =>
    have hpair : fromArray leafMax summarize [a, a] =
        some ⟨some (mkLeaf summarize [a, a]), 2, 1⟩ := by
      obtain ⟨m, rfl⟩ : ∃ m, leafMax = m + 2 := ⟨leafMax - 2, by omega⟩
      simp [fromArray, chunks, buildUp]
    exact ⟨_, _, hpair, .fromArray (by simp) hpair, rfl, Nat.le_refl _⟩
  | succ k ih =>
    obtain ⟨n, height, hk, hmade, hlen, hle⟩ := ih
    obtain ⟨m, height', hconcat, hto, hle'⟩ :=
      concat_self leafMax n (2 ^ (k + 1) % 2 ^ 64) height
    have hcount : (2 ^ (k + 1) % 2 ^ 64 + 2 ^ (k + 1) % 2 ^ 64) % 2 ^ 64 =
        2 ^ (k + 1 + 1) % 2 ^ 64 := by
      rw [← Nat.add_mod, ← Nat.mul_two, ← Nat.pow_succ]
    rw [hcount] at hconcat
    refine ⟨m, height', ?_, .concat hmade hmade trivial hconcat, ?_, by omega⟩
    · rw [doubled, hk]
      exact hconcat
    · rw [hto, List.length_append, hlen, ← Nat.mul_two, ← Nat.pow_succ]

/-- After 63 of them the count is zero, and there is no first element. -/
theorem count_wraps : ∃ r : Root Unit Unit,
    doubled 32 (fun _ => ()) () 63 = some r ∧
    Made 32 (fun _ => ()) (fun _ _ => True) r ∧ r.height ≤ pathMax ∧
    r.toList.length = 2 ^ 64 ∧ r.count = 0 ∧ get r 0 = none := by
  obtain ⟨n, height, hk, hmade, hlen, hle⟩ :=
    doubled_spec 32 (fun _ : List Unit => ()) (by decide) () 63
  refine ⟨_, hk, hmade, hle, ?_, Nat.mod_self _, rfl⟩
  rw [Root.toList, held_some, hlen]

end Jacl.SumTree
