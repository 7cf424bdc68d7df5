import Jacl.Graphemes

/-!
# Grapheme clusters and the rules of UAX #29

`NoBreak` states the rules over everything before a position.  The flag of the loop says
more than GB11 does: it stays up over every run of Extend and ZWJ.  So the boundaries are
those of the rules exactly where no second ZWJ comes between two pictographs (`OneJoiner`).
-/

namespace Jacl.Graphemes
open Utf8 BreakMachines

/-- **The rules that forbid a break** before `next`, with what comes before it nearest first. -/
inductive NoBreak : List GraphemeBreak → GraphemeBreak → Prop
  | gb3 {before} : NoBreak (.cr :: before) .lf
  | gb6 {before next} (h : next = .l ∨ next = .v ∨ next = .lv ∨ next = .lvt) :
      NoBreak (.l :: before) next
  | gb7 {prev before next} (hp : prev = .lv ∨ prev = .v) (h : next = .v ∨ next = .t) :
      NoBreak (prev :: before) next
  | gb8 {prev before} (hp : prev = .lvt ∨ prev = .t) : NoBreak (prev :: before) .t
  | gb9 {prev before next} (gb4 : prev.isControl = false) (h : next = .extend ∨ next = .zwj) :
      NoBreak (prev :: before) next
  | gb9a {prev before} (gb4 : prev.isControl = false) : NoBreak (prev :: before) .spacingMark
  | gb9b {before next} (gb5 : next.isControl = false) : NoBreak (.prepend :: before) next
  | gb11 {n before} :
      NoBreak (.zwj :: List.replicate n .extend ++ .extendedPictographic :: before) .extendedPictographic
  | gb12_13 {n before} (h : before.head? ≠ some .regionalIndicator) :
      NoBreak (List.replicate (2 * n + 1) .regionalIndicator ++ before) .regionalIndicator

/-- A rule forbids a break between the two parts of a text. -/
def Forbidden (graphemeBreak : Nat → GraphemeBreak) (before after : List Nat) : Prop :=
  ∃ cp rest, after = cp :: rest ∧ NoBreak (before.map graphemeBreak).reverse (graphemeBreak cp)

/-- An Extend or a ZWJ. -/
def GraphemeBreak.Extends (c : GraphemeBreak) : Prop := c = .extend ∨ c = .zwj

/-- A ZWJ that joins two pictographs has no other before it since the first of them. -/
def OneJoiner (classes : List GraphemeBreak) : Prop :=
  ∀ l w r, classes = l ++ .extendedPictographic :: (w ++ .zwj :: .extendedPictographic :: r) →
    (∀ c ∈ w, c.Extends) → GraphemeBreak.zwj ∉ w

/-- After a pictograph and then Extend and ZWJ only, nearest first. -/
def AfterPictograph (before : List GraphemeBreak) : Prop :=
  ∃ w l, before = w ++ .extendedPictographic :: l ∧ ∀ c ∈ w, c.Extends

/-- What the variables of the loop say about everything before. -/
structure Reads (before : List GraphemeBreak) (s : Scan) : Prop where
  prev : ∃ l, before = s.prev :: l
  flag : s.seenExtPic = true ↔ AfterPictograph before
  parity : s.prev = .regionalIndicator → ∃ n l, before = List.replicate n .regionalIndicator ++ l ∧
    l.head? ≠ some .regionalIndicator ∧ s.riCount % 2 = n % 2

variable {graphemeBreak : Nat → GraphemeBreak} {cps : List Nat} {s s' : Scan} {cp : Nat}
  {before : List GraphemeBreak} {prev next c : GraphemeBreak}

/-! ### The flag and the count -/

theorem afterPictograph_pictograph : AfterPictograph (.extendedPictographic :: before) :=
  ⟨[], before, rfl, by simp⟩

theorem afterPictograph_extends (h : c.Extends) :
    AfterPictograph (c :: before) ↔ AfterPictograph before := by
  constructor
  · rintro ⟨w, l, hw, hall⟩
    cases w with
    | nil =>
      obtain ⟨rfl, rfl⟩ := List.cons.inj hw
      rcases h with h | h <;> cases h
    | cons d w =>
      obtain ⟨rfl, hrest⟩ := List.cons.inj hw
      exact ⟨w, l, hrest, fun x hx => hall x (List.mem_cons_of_mem _ hx)⟩
  · rintro ⟨w, l, rfl, hall⟩
    refine ⟨c :: w, l, rfl, fun x hx => ?_⟩
    rcases List.mem_cons.mp hx with rfl | hx
    · exact h
    · exact hall x hx

theorem not_afterPictograph (hp : c ≠ .extendedPictographic) (he : ¬ c.Extends) :
    ¬ AfterPictograph (c :: before) := by
  rintro ⟨w, l, hw, hall⟩
  cases w with
  | nil => exact hp (List.cons.inj hw).1
  | cons d w =>
    obtain ⟨rfl, -⟩ := List.cons.inj hw
    exact he (hall _ List.mem_cons_self)

/-- The length of a run of one class is determined. -/
theorem replicate_unique {m n : Nat} {l r : List GraphemeBreak}
    (h : List.replicate m c ++ l = List.replicate n c ++ r) (hl : l.head? ≠ some c)
    (hr : r.head? ≠ some c) : m = n := by
  induction m generalizing n with
  | zero =>
    cases n with
    | zero => rfl
    | succ n =>
      obtain rfl : l = c :: (List.replicate n c ++ r) := h
      exact absurd rfl hl
  | succ m ih =>
    cases n with
    | zero =>
      obtain rfl : c :: (List.replicate m c ++ l) = r := h
      exact absurd rfl hr
    | succ n => rw [ih (List.cons.inj h).2]

/-- A new part starts the flag and the count anew. -/
theorem Reads.start (hseen : next.Extends → ¬ AfterPictograph before)
    (hpair : next = .regionalIndicator → ∃ n l, before = List.replicate (2 * n) .regionalIndicator ++ l ∧
      l.head? ≠ some .regionalIndicator) :
    Reads (next :: before) (Scan.start next) where
  prev := ⟨before, rfl⟩
  flag := by
    show (next == .extendedPictographic) = true ↔ _
    rw [beq_iff_eq]
    constructor
    · rintro rfl
      exact afterPictograph_pictograph
    · intro h
      by_contra hne
      by_cases hx : next.Extends
      · exact hseen hx ((afterPictograph_extends hx).mp h)
      · exact not_afterPictograph hne hx h
  parity := by
    rintro hri
    obtain rfl : next = .regionalIndicator := hri
    obtain ⟨n, l, rfl, hl⟩ := hpair rfl
    exact ⟨2 * n + 1, l, rfl, hl, by simp only [Scan.start, if_true]; omega⟩

/-- A class that neither starts nor carries an emoji sequence lowers the flag. -/
theorem Reads.plain {k : Nat} (hp : next ≠ .extendedPictographic) (he : ¬ next.Extends)
    (hri : next ≠ .regionalIndicator) : Reads (next :: before) ⟨next, false, k⟩ where
  prev := ⟨before, rfl⟩
  flag := by
    constructor
    · rintro ⟨⟩
    · exact fun h => absurd h (not_afterPictograph hp he)
  parity := fun h => absurd h hri

/-- An Extend or a ZWJ leaves the flag as it is. -/
theorem Reads.extends {k : Nat} (h : Reads before s) (he : next.Extends) :
    Reads (next :: before) ⟨next, s.seenExtPic, k⟩ where
  prev := ⟨before, rfl⟩
  flag := by rw [afterPictograph_extends he, ← h.flag]
  parity := by
    rintro hri
    obtain rfl : next = .regionalIndicator := hri
    rcases he with he | he <;> cases he

theorem kept_of_extends (he : next.Extends) : s.kept next = s.seenExtPic := by
  rw [Scan.kept]
  split_ifs with hz hx
  · rfl
  · rfl
  · exact (Bool.eq_false_iff.mpr fun hseen => hz ⟨he.resolve_left hx, hseen⟩).symm

theorem Reads.flag_of_prev (h : Reads before s) (hp : s.prev ≠ .extendedPictographic)
    (he : ¬ s.prev.Extends) : s.seenExtPic = false := by
  obtain ⟨l, rfl⟩ := h.prev
  exact Bool.eq_false_iff.mpr fun hs => not_afterPictograph hp he (h.flag.mp hs)

/-- A pictograph after ZWJ after a run of Extend and ZWJ with another ZWJ in it. -/
def Doubled (before : List GraphemeBreak) (next : GraphemeBreak) : Prop :=
  next = .extendedPictographic ∧ ∃ w l, before = .zwj :: (w ++ .extendedPictographic :: l) ∧
    (∀ c ∈ w, c.Extends) ∧ GraphemeBreak.zwj ∈ w

/-- What the flag stands for after a ZWJ: GB11, or a second ZWJ. -/
theorem joiner_of_afterPictograph (h : AfterPictograph (.zwj :: before)) :
    NoBreak (.zwj :: before) .extendedPictographic ∨
      Doubled (.zwj :: before) .extendedPictographic := by
  obtain ⟨w, l, hw, hall⟩ := h
  cases w with
  | nil => cases (List.cons.inj hw).1
  | cons c w =>
    obtain ⟨-, rfl⟩ := List.cons.inj hw
    have hrest : ∀ x ∈ w, x.Extends := fun x hx => hall x (List.mem_cons_of_mem _ hx)
    by_cases hz : GraphemeBreak.zwj ∈ w
    · exact .inr ⟨rfl, w, l, rfl, hrest, hz⟩
    · have hextend : w = List.replicate w.length .extend := by
        refine List.eq_replicate_of_mem fun x hx => ?_
        rcases hrest x hx with hx' | hx'
        · exact hx'
        · exact absurd (hx' ▸ hx) hz
      rw [hextend]
      exact .inl .gb11

theorem Reads.pair (h : Reads before s) (hri : s.prev = .regionalIndicator) (hodd : s.riCount % 2 = 1) :
    NoBreak before .regionalIndicator := by
  obtain ⟨n, l, rfl, hl, hn⟩ := h.parity hri
  obtain ⟨k, rfl⟩ : ∃ k, n = 2 * k + 1 := ⟨n / 2, by omega⟩
  exact .gb12_13 hl

/-- **What the loop takes** is joined by a rule or by the second ZWJ, and the variables go on
to say what they say. -/
theorem Reads.step (h : Reads before s) (hc : s.prev.isControl = false) (hs : s.step next = some s') :
    Reads (next :: before) s' ∧ (NoBreak before next ∨ Doubled before next) := by
  obtain ⟨l, rfl⟩ := h.prev
  unfold Scan.step at hs
  split_ifs at hs with h5 h6 h7 h8 h9 h9a h9b h11 h12
  · obtain ⟨hprev, hnext⟩ := h6
    obtain rfl := Option.some.inj hs
    have hflag := h.flag_of_prev (by rw [hprev]; decide) (by rw [hprev]; rintro (hx | hx) <;> cases hx)
    rw [hflag, hprev]
    refine ⟨?_, .inl (.gb6 hnext)⟩
    rcases hnext with rfl | rfl | rfl | rfl <;>
      exact .plain (by decide) (by rintro (hx | hx) <;> cases hx) (by decide)
  · obtain ⟨hprev, hnext⟩ := h7
    obtain rfl := Option.some.inj hs
    have hflag := h.flag_of_prev (by rcases hprev with hp | hp <;> rw [hp] <;> decide)
      (by rcases hprev with hp | hp <;> rw [hp] <;> rintro (hx | hx) <;> cases hx)
    rw [hflag]
    refine ⟨?_, .inl (.gb7 hprev hnext)⟩
    rcases hnext with rfl | rfl <;>
      exact .plain (by decide) (by rintro (hx | hx) <;> cases hx) (by decide)
  · obtain ⟨hprev, rfl⟩ := h8
    obtain rfl := Option.some.inj hs
    have hflag := h.flag_of_prev (by rcases hprev with hp | hp <;> rw [hp] <;> decide)
      (by rcases hprev with hp | hp <;> rw [hp] <;> rintro (hx | hx) <;> cases hx)
    rw [hflag]
    exact ⟨.plain (by decide) (by rintro (hx | hx) <;> cases hx) (by decide), .inl (.gb8 hprev)⟩
  · obtain rfl := Option.some.inj hs
    rw [kept_of_extends h9]
    exact ⟨h.extends h9, .inl (.gb9 hc h9)⟩
  · obtain rfl := Option.some.inj hs
    subst h9a
    exact ⟨.plain (by decide) (by rintro (hx | hx) <;> cases hx) (by decide), .inl (.gb9a hc)⟩
  · obtain rfl := Option.some.inj hs
    rw [h9b]
    refine ⟨?_, .inl (.gb9b (Bool.eq_false_iff.mpr h5))⟩
    exact .start (fun he => absurd he h9) fun _ => ⟨0, .prepend :: l, rfl, by simp⟩
  · obtain ⟨hprev, hseen, rfl⟩ := h11
    obtain rfl := Option.some.inj hs
    refine ⟨⟨⟨_, rfl⟩, ⟨fun _ => afterPictograph_pictograph, fun _ => rfl⟩, ?_⟩, ?_⟩
    · rintro ⟨⟩
    · rw [hprev]
      exact joiner_of_afterPictograph (hprev ▸ h.flag.mp hseen)
  · obtain ⟨hprev, rfl, hodd⟩ := h12
    obtain rfl := Option.some.inj hs
    refine ⟨⟨⟨_, rfl⟩, ⟨?_, fun hx => ?_⟩, fun _ => ?_⟩, .inl (h.pair hprev hodd)⟩
    · rintro ⟨⟩
    · exact absurd hx (not_afterPictograph (by decide) (by rintro (hx | hx) <;> cases hx))
    · obtain ⟨n, r, hrun, hr, hn⟩ := h.parity hprev
      refine ⟨n + 1, r, by rw [hrun]; rfl, hr, ?_⟩
      show (s.riCount + 1) % 2 = _
      omega

/-- **What a rule joins, the loop takes.** -/
theorem step_of_noBreak (h : Reads before s) (hr : NoBreak before next)
    (hlf : ¬ (s.prev = .cr ∧ next = .lf)) :
    s.prev.isControl = false ∧ (s.step next).isSome = true := by
  obtain ⟨l, hl⟩ := h.prev
  cases hr with
  | gb3 => exact absurd ⟨(List.cons.inj hl).1.symm, rfl⟩ hlf
  | gb6 hnext =>
    have hprev := (List.cons.inj hl).1.symm
    rcases hnext with rfl | rfl | rfl | rfl <;> simp [Scan.step, hprev, GraphemeBreak.isControl]
  | gb7 hp hnext =>
    rw [(List.cons.inj hl).1] at hp
    rcases hp with hp | hp <;> rcases hnext with rfl | rfl <;>
      simp [Scan.step, hp, GraphemeBreak.isControl]
  | gb8 hp =>
    rw [(List.cons.inj hl).1] at hp
    rcases hp with hp | hp <;> simp [Scan.step, hp, GraphemeBreak.isControl]
  | gb9 hc hnext =>
    rw [(List.cons.inj hl).1] at hc
    refine ⟨hc, ?_⟩
    rcases hnext with rfl | rfl <;> simp [Scan.step, GraphemeBreak.isControl]
  | gb9a hc =>
    rw [(List.cons.inj hl).1] at hc
    refine ⟨hc, ?_⟩
    simp [Scan.step, GraphemeBreak.isControl]
  | gb9b hc =>
    have hprev := (List.cons.inj hl).1.symm
    refine ⟨by rw [hprev]; rfl, ?_⟩
    simp only [Scan.step, hprev, hc]
    split_ifs <;> first | rfl | contradiction
  | gb11 =>
    have hprev := (List.cons.inj hl).1.symm
    have hseen : s.seenExtPic = true := by
      refine h.flag.mpr ((afterPictograph_extends (.inr rfl)).mpr ⟨_, _, rfl, fun c hc => ?_⟩)
      exact .inl (List.eq_of_mem_replicate hc)
    simp [Scan.step, hprev, hseen, GraphemeBreak.isControl]
  | @gb12_13 n l' hhead =>
    have hprev : s.prev = .regionalIndicator := (List.cons.inj hl).1.symm
    obtain ⟨m, r, hrun, hr, hm⟩ := h.parity hprev
    have hlen := replicate_unique hrun hhead hr
    have hodd : s.riCount % 2 = 1 := by omega
    simp [Scan.step, hprev, hodd, GraphemeBreak.isControl]

theorem step_of_doubled (h : Reads before s) (hd : Doubled before next) :
    s.prev.isControl = false ∧ (s.step next).isSome = true := by
  obtain ⟨rfl, w, r, rfl, hall, -⟩ := hd
  obtain ⟨l, hl⟩ := h.prev
  have hprev := (List.cons.inj hl).1.symm
  have hseen : s.seenExtPic = true :=
    h.flag.mpr ((afterPictograph_extends (.inr rfl)).mpr ⟨w, r, rfl, hall⟩)
  simp [Scan.step, hprev, hseen, GraphemeBreak.isControl]

/-- **A cut of the machine** is where neither a rule nor the second ZWJ joins. -/
theorem next_none_iff (h : Reads before s) :
    (clusters graphemeBreak).next s cp = none ↔
      ¬ NoBreak before (graphemeBreak cp) ∧ ¬ Doubled before (graphemeBreak cp) := by
  show ite _ _ _ = none ↔ _
  split_ifs with hlf hc
  · obtain ⟨l, rfl⟩ := h.prev
    refine ⟨?_, fun hnone => absurd ?_ hnone.1⟩
    · rintro ⟨⟩
    · rw [hlf.1, hlf.2]
      exact .gb3
  · refine ⟨fun _ => ⟨fun hr => ?_, fun hd => ?_⟩, fun _ => rfl⟩
    · exact absurd hc (Bool.eq_false_iff.mp (step_of_noBreak h hr hlf).1)
    · exact absurd hc (Bool.eq_false_iff.mp (step_of_doubled h hd).1)
  · cases hs : s.step (graphemeBreak cp) with
    | none =>
      refine ⟨fun _ => ⟨fun hr => ?_, fun hd => ?_⟩, fun _ => rfl⟩
      · have hsome := (step_of_noBreak h hr hlf).2
        rw [hs] at hsome
        cases hsome
      · have hsome := (step_of_doubled h hd).2
        rw [hs] at hsome
        cases hsome
    | some s' =>
      refine ⟨?_, fun hnone => ?_⟩
      · rintro ⟨⟩
      · rcases (h.step (Bool.eq_false_iff.mpr hc) hs).2 with hr | hd
        · exact absurd hr hnone.1
        · exact absurd hd hnone.2

/-- **One codepoint** more, in the cluster or after a cut. -/
theorem Reads.onward (h : Reads before s) :
    Reads (graphemeBreak cp :: before)
      (((clusters graphemeBreak).next s cp).getD ((clusters graphemeBreak).start cp)) := by
  obtain ⟨l, hl⟩ := id h.prev
  cases hnext : (clusters graphemeBreak).next s cp with
  | none =>
    obtain ⟨hrule, -⟩ := (next_none_iff h).mp hnext
    refine .start (fun he hpic => ?_) fun hri => ?_
    · cases hc : s.prev.isControl with
      | true =>
        subst hl
        refine not_afterPictograph ?_ ?_ hpic
        · rintro hp
          rw [hp] at hc
          cases hc
        · rintro (hp | hp) <;> rw [hp] at hc <;> cases hc
      | false =>
        subst hl
        exact hrule (.gb9 hc he)
    · by_cases hp : s.prev = .regionalIndicator
      · obtain ⟨n, r, rfl, hr, hn⟩ := h.parity hp
        by_cases hodd : n % 2 = 1
        · rw [hri] at hrule
          exact absurd (h.pair hp (hn.trans hodd)) hrule
        · exact ⟨n / 2, r, by rw [Nat.mul_div_cancel' (by omega)], hr⟩
      · refine ⟨0, before, rfl, fun hhead => hp ?_⟩
        subst hl
        exact Option.some.inj hhead
  | some s' =>
    rw [Option.getD_some]
    have hsome : (if s.prev = .cr ∧ graphemeBreak cp = .lf then some (Scan.start .lf)
        else if s.prev.isControl then none else s.step (graphemeBreak cp)) = some s' := hnext
    split_ifs at hsome with hlf hc
    · obtain rfl := Option.some.inj hsome
      rw [hlf.2]
      exact .plain (by decide) (by rintro (hx | hx) <;> cases hx) (by decide)
    · exact (h.step (Bool.eq_false_iff.mpr hc) hsome).1

/-- **After any text** the variables say what they say. -/
theorem Reads.state {rest : List Nat} (h : Reads before s) :
    Reads ((rest.map graphemeBreak).reverse ++ before) ((clusters graphemeBreak).state s rest) := by
  induction rest generalizing before s with
  | nil => exact h
  | cons c rest ih =>
    have hnext := ih (@Reads.onward graphemeBreak s c before h)
    rw [List.map_cons, List.reverse_cons, List.append_assoc]
    exact hnext

theorem cut_iff_rules {l r : List Nat} : (clusters graphemeBreak).Cut l r ↔
    ∀ cp rest, r = cp :: rest → l ≠ [] →
      ¬ NoBreak (l.map graphemeBreak).reverse (graphemeBreak cp) ∧
        ¬ Doubled (l.map graphemeBreak).reverse (graphemeBreak cp) := by
  cases l with
  | nil => exact ⟨fun _ cp rest _ h => absurd rfl h, fun _ => Machine.cut_nil⟩
  | cons a l =>
    have hstart : Reads [graphemeBreak a] (Scan.start (graphemeBreak a)) := by
      refine .start (fun _ => ?_) fun _ => ⟨0, [], rfl, by simp⟩
      rintro ⟨w, r, hw, -⟩
      cases w <;> cases hw
    have hread := @Reads.state graphemeBreak _ _ l hstart
    rw [Machine.cut_cons, Machine.CutFrom, List.map_cons, List.reverse_cons]
    constructor
    · intro h cp rest hr _
      exact (next_none_iff hread).mp (h cp rest hr)
    · intro h cp rest hr
      exact (next_none_iff hread).mpr (h cp rest hr (List.cons_ne_nil _ _))

/-! ### The boundaries -/

/-- Back to a pictograph over Extend only, there is no ZWJ. -/
theorem zwj_notMem_of_replicate {n : Nat} {w l r : List GraphemeBreak}
    (h : w ++ .extendedPictographic :: l = List.replicate n .extend ++ .extendedPictographic :: r)
    (hall : ∀ c ∈ w, c.Extends) : GraphemeBreak.zwj ∉ w := by
  induction w generalizing n with
  | nil => exact List.not_mem_nil
  | cons c w ih =>
    cases n with
    | zero =>
      obtain rfl := (List.cons.inj h).1
      rcases hall _ List.mem_cons_self with hx | hx <;> cases hx
    | succ n =>
      obtain ⟨rfl, hrest⟩ := List.cons.inj h
      have hw := ih hrest fun x hx => hall x (List.mem_cons_of_mem _ hx)
      intro hz
      rcases List.mem_cons.mp hz with hz | hz
      · cases hz
      · exact hw hz

theorem NoBreak.not_doubled (h : NoBreak before next) : ¬ Doubled before next := by
  rintro ⟨rfl, w, l, rfl, hall, hz⟩
  generalize hb : GraphemeBreak.zwj :: (w ++ .extendedPictographic :: l) = b at h
  generalize hn : GraphemeBreak.extendedPictographic = n at h
  cases h with
  | gb3 => cases hn
  | gb6 => cases hb
  | gb7 hp => rcases hp with rfl | rfl <;> cases hb
  | gb8 => cases hn
  | gb9 _ hx => subst hn; rcases hx with hx | hx <;> cases hx
  | gb9a => cases hn
  | gb9b => cases hb
  | gb11 => exact zwj_notMem_of_replicate (List.cons.inj hb).2 hall hz
  | gb12_13 => cases hn

theorem Forbidden.ne_nil {l r : List Nat} (h : Forbidden graphemeBreak l r) : l ≠ [] := by
  rintro rfl
  obtain ⟨cp, rest, -, hr⟩ := h
  cases hr

/-- The text before a position is determined by its bytes. -/
theorem offset_injective {l r l' r' : List Nat} (hcps : ∀ cp ∈ l ++ r, Scalar cp)
    (h : l ++ r = l' ++ r') (hoff : offset l = offset l') : l = l' := by
  induction l generalizing l' with
  | nil =>
    cases l' with
    | nil => rfl
    | cons c l' =>
      have hpos := encode_length_pos (hcps c (by rw [h]; simp))
      rw [offset_nil, offset_cons] at hoff
      omega
  | cons c l ih =>
    cases l' with
    | nil =>
      have hpos := encode_length_pos (hcps c (by simp))
      rw [offset_nil, offset_cons] at hoff
      omega
    | cons d l' =>
      obtain ⟨rfl, hrest⟩ := List.cons.inj h
      rw [ih (fun cp hcp => hcps cp (List.mem_cons_of_mem _ hcp)) hrest
        (Nat.add_left_cancel (by simpa only [offset_cons] using hoff))]

/-- Two pictographs with a second ZWJ between them are such a place of the text. -/
theorem oneJoiner_iff : OneJoiner (cps.map graphemeBreak) ↔
    ∀ l cp r, cps = l ++ cp :: r → ¬ Doubled (l.map graphemeBreak).reverse (graphemeBreak cp) := by
  constructor
  · rintro h l cp r rfl ⟨hcp, w, x, hl, hall, hz⟩
    refine h x.reverse w.reverse (r.map graphemeBreak) ?_
      (fun c hc => hall c (List.mem_reverse.mp hc)) (List.mem_reverse.mpr hz)
    rw [List.reverse_eq_iff] at hl
    rw [List.map_append, List.map_cons, hl, hcp]
    simp
  · intro h x w y hcps hall hz
    obtain ⟨l₁, r₁, rfl, hx, hr₁⟩ := List.map_eq_append_iff.mp hcps
    obtain ⟨p, r₂, rfl, hp, hr₂⟩ := List.map_eq_cons_iff.mp hr₁
    obtain ⟨l₂, r₃, rfl, hw, hr₃⟩ := List.map_eq_append_iff.mp hr₂
    obtain ⟨z, r₄, rfl, hzwj, hr₄⟩ := List.map_eq_cons_iff.mp hr₃
    obtain ⟨q, r₅, rfl, hq, -⟩ := List.map_eq_cons_iff.mp hr₄
    refine h (l₁ ++ p :: (l₂ ++ [z])) q r₅ (by simp) ⟨hq, w.reverse, x.reverse, ?_, ?_, ?_⟩
    · rw [List.map_append, List.map_cons, List.map_append, hx, hp, hw, List.map_singleton, hzwj]
      simp
    · exact fun c hc => hall c (List.mem_reverse.mp hc)
    · exact List.mem_reverse.mpr hz

/-- **The boundaries of the code are those of the rules** exactly when no second ZWJ comes
between two pictographs that only Extend and ZWJ keep apart. -/
theorem boundaries_iff_rules (hcps : ∀ cp ∈ cps, Scalar cp) :
    (∀ p, p ∈ graphemeBoundaries graphemeBreak (encodeAll cps) ↔
      ∃ l r, cps = l ++ r ∧ p = (encodeAll l).length ∧ ¬ Forbidden graphemeBreak l r) ↔
    OneJoiner (cps.map graphemeBreak) := by
  rw [oneJoiner_iff]
  constructor
  · rintro h l cp r rfl hd
    have hfree : ¬ Forbidden graphemeBreak l (cp :: r) := by
      rintro ⟨c, rest, hrest, hr⟩
      obtain ⟨rfl, -⟩ := List.cons.inj hrest
      exact hr.not_doubled hd
    have hmem := (h (encodeAll l).length).mpr ⟨l, cp :: r, rfl, rfl, hfree⟩
    obtain ⟨l', r', hsplit, hoff, hcut⟩ := (mem_graphemeBoundaries hcps).mp hmem
    rw [length_encodeAll] at hoff
    obtain rfl := offset_injective hcps hsplit hoff
    obtain rfl := List.append_cancel_left hsplit
    have hne : l ≠ [] := by
      rintro rfl
      obtain ⟨-, w, x, hx, -⟩ := hd
      cases hx
    exact (cut_iff_rules.mp hcut cp r rfl hne).2 hd
  · intro h p
    rw [mem_graphemeBoundaries hcps]
    refine exists_congr fun l => exists_congr fun r => and_congr_right fun hsplit => ?_
    rw [length_encodeAll]
    refine and_congr_right fun _ => ?_
    rw [cut_iff_rules]
    constructor
    · rintro hcut hforbidden
      have hne := hforbidden.ne_nil
      obtain ⟨cp, rest, rfl, hr⟩ := hforbidden
      exact (hcut cp rest rfl hne).1 hr
    · rintro hforbidden cp rest rfl hne
      exact ⟨fun hr => hforbidden ⟨cp, rest, rfl, hr⟩, h l cp rest hsplit⟩

/-- The classes of a pictograph, ZWJ, a combining mark and the rest. -/
def emojiClasses (cp : Nat) : GraphemeBreak :=
  if cp = 0x1F468 then .extendedPictographic else if cp = 0x200D then .zwj
  else if cp = 0x301 then .extend else .other

/-- Three codepoints with one joiner between two pictographs. -/
theorem boundaries_iff_rules_family :
    (∀ p, p ∈ graphemeBoundaries emojiClasses (encodeAll [0x1F468, 0x200D, 0x1F468]) ↔
      ∃ l r, [0x1F468, 0x200D, 0x1F468] = l ++ r ∧ p = (encodeAll l).length ∧
        ¬ Forbidden emojiClasses l r) ↔
    OneJoiner ([0x1F468, 0x200D, 0x1F468].map emojiClasses) :=
  boundaries_iff_rules (by decide)

/-- A pictograph, ZWJ, a combining mark, ZWJ and a pictograph are one cluster of the code and
two of the rules. -/
theorem boundaries_miss_rules :
    ¬ ∀ p, p ∈ graphemeBoundaries emojiClasses (encodeAll [0x1F468, 0x200D, 0x301, 0x200D, 0x1F468]) ↔
      ∃ l r, [0x1F468, 0x200D, 0x301, 0x200D, 0x1F468] = l ++ r ∧ p = (encodeAll l).length ∧
        ¬ Forbidden emojiClasses l r := by
  intro h
  have hfree : ¬ Forbidden emojiClasses [0x1F468, 0x200D, 0x301, 0x200D] [0x1F468] := by
    rintro ⟨cp, rest, hrest, hr⟩
    obtain ⟨rfl, -⟩ := List.cons.inj hrest
    exact hr.not_doubled ⟨rfl, [.extend, .zwj], [], rfl,
      by simp [GraphemeBreak.Extends], by simp⟩
  have hmem : (12 : Nat) ∈ graphemeBoundaries emojiClasses
      (encodeAll [0x1F468, 0x200D, 0x301, 0x200D, 0x1F468]) :=
    (h 12).mpr ⟨[0x1F468, 0x200D, 0x301, 0x200D], [0x1F468], rfl, by decide, hfree⟩
  revert hmem
  decide

end Jacl.Graphemes
