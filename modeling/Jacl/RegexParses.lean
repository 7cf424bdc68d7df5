import Jacl.RegexGrammar

/-!
# The parser and the grammar

What the functions of the parser derive, that they find what can be derived, and that their fuel
suffices; each by one induction for all of them.
-/

namespace Jacl.Regex

open Readers (bind_eq_ok)

theorem bind_eq_error {ε α β : Type} {x : Except ε α} {f : α → Except ε β} {e : ε} :
    x >>= f = .error e ↔ x = .error e ∨ ∃ a, x = .ok a ∧ f a = .error e := by
  cases x with
  | error e' =>
    constructor
    · intro h
      cases h
      exact .inl rfl
    · rintro (h | ⟨a, h, -⟩)
      · cases h
        rfl
      · cases h
  | ok a =>
    constructor
    · exact fun h => .inr ⟨a, rfl, h⟩
    · rintro (h | ⟨b, h, hf⟩)
      · cases h
      · cases h
        exact hf

/-! ### Where the parser stops -/

/-- No atom begins here. -/
def NoAtom (p : Parser) : Prop :=
  ∀ c ∈ p.rest.head?, c = ch ')' ∨ c = ch '|' ∨ c = ch '*' ∨ c = ch '+' ∨ c = ch '?'

/-- Nor does the regular expression go on with another branch. -/
def Ends (p : Parser) : Prop := NoAtom p ∧ ∀ c ∈ p.rest.head?, c ≠ ch '|'

theorem noAtom_of_nil {p : Parser} (h : p.rest = []) : NoAtom p := by
  intro c hc
  rw [h] at hc
  cases hc

theorem noAtom_of_cons {p : Parser} {c : Byte} {rest : List Byte} (h : p.rest = c :: rest)
    (hc : c = ch ')' ∨ c = ch '|' ∨ c = ch '*' ∨ c = ch '+' ∨ c = ch '?') : NoAtom p := by
  intro d hd
  rw [h] at hd
  cases hd
  exact hc

/-! ### Flags and groups -/

theorem setFlag_eq_none {f g : Flags} {c : Byte} (h : setFlag f c = none) : setFlag g c = none := by
  simp only [setFlag] at h ⊢
  by_cases h1 : c = ch 's'
  · rw [if_pos h1] at h
    cases h
  by_cases h2 : c = ch 'm'
  · rw [if_neg h1, if_pos h2] at h
    cases h
  by_cases h3 : c = ch 'i'
  · rw [if_neg h1, if_neg h2, if_pos h3] at h
    cases h
  rw [if_neg h1, if_neg h2, if_neg h3]

theorem parseFlags_sound {f f' : Flags} {has has' : Bool} {text rest : List Byte}
    (h : parseFlags f has text = (f', has', rest)) :
    ∃ set, text = set ++ rest ∧ addFlags f set = some f' ∧ (has' = true → has = true ∨ set ≠ []) := by
  induction text generalizing f has with
  | nil =>
    cases h
    exact ⟨[], rfl, rfl, .inl⟩
  | cons c text ih =>
    rw [parseFlags] at h
    cases hc : setFlag f c with
    | none =>
      rw [hc] at h
      cases h
      exact ⟨[], rfl, rfl, .inl⟩
    | some g =>
      rw [hc] at h
      obtain ⟨set, rfl, hadd, -⟩ := ih h
      exact ⟨c :: set, rfl, by rw [addFlags, hc]; exact hadd, fun _ => .inr nofun⟩

theorem parseFlags_complete {f f' : Flags} (has : Bool) {set : List Byte} (rest : List Byte) {c : Byte}
    (hadd : addFlags f set = some f') (hc : setFlag f' c = none) :
    parseFlags f has (set ++ c :: rest) = (f', has || !set.isEmpty, c :: rest) := by
  induction set generalizing f has with
  | nil =>
    obtain rfl := Option.some.inj hadd
    rw [List.nil_append, parseFlags, hc]
    simp
  | cons d set ih =>
    rw [addFlags] at hadd
    obtain ⟨g, hd, hadd⟩ := Option.bind_eq_some_iff.mp hadd
    rw [List.cons_append, parseFlags, hd]
    change parseFlags g true (set ++ c :: rest) = _
    rw [ih true hadd]
    simp

theorem closeGroup_iff {p q : Parser} :
    closeGroup p = .ok q ↔ ∃ rest, p.rest = ch ')' :: rest ∧ q = { p with rest } := by
  rw [closeGroup]
  rcases hp : p.rest with _ | ⟨c, rest⟩
  · exact iff_of_false nofun (by rintro ⟨rest, h, -⟩; cases h)
  · simp only
    by_cases hc : c = ch ')'
    · rw [if_pos hc, hc]
      constructor
      · intro h
        cases h
        exact ⟨rest, rfl, rfl⟩
      · rintro ⟨rest', h, rfl⟩
        cases h
        rfl
    · rw [if_neg hc]
      refine iff_of_false nofun ?_
      rintro ⟨rest', h, -⟩
      cases h
      exact hc rfl

/-! ### What the parser derives -/

/-- With fuel `n`, each function derives what it returns. -/
structure SoundAt (n : Nat) : Prop where
  regex : ∀ {p a q}, parseRegex n p = .ok (a, q) → Derives .regex p [a] q ∧ Ends q
  branches : ∀ {p bs q}, parseBranches n p = .ok (bs, q) → NoAtom p →
    Derives .branches p bs q ∧ Ends q
  concat : ∀ {p a q}, parseConcat n p = .ok (a, q) → Derives .concat p [a] q ∧ NoAtom q
  parts : ∀ {p as q}, parseParts n p = .ok (as, q) → Derives .parts p as q ∧ NoAtom q
  noRepeat : ∀ {p}, parseRepeat n p = .ok none → NoAtom p
  repeated : ∀ {p a q}, parseRepeat n p = .ok (some (a, q)) → Derives .repeated p [a] q
  noAtom : ∀ {p}, parseAtom n p = .ok none → NoAtom p
  atom : ∀ {p a q}, parseAtom n p = .ok (some (a, q)) → Derives .atom p [a] q
  group : ∀ {p r} {rest : List Byte}, parseGroup n { p with rest } = .ok r →
    p.rest = ch '(' :: rest → ∃ a q, r = some (a, q) ∧ Derives .atom p [a] q

theorem SoundAt.group_succ {n : Nat} (ih : SoundAt n) {p : Parser} {r : Option (Ast × Parser)}
    {rest : List Byte} (h : parseGroup (n + 1) { p with rest } = .ok r)
    (hp : p.rest = ch '(' :: rest) : ∃ a q, r = some (a, q) ∧ Derives .atom p [a] q := by
  rw [parseGroup] at h
  by_cases hhead : rest.head? = some (ch '?')
  · simp only [if_pos hhead] at h
    obtain ⟨text, rfl⟩ : ∃ text, rest = ch '?' :: text := by
      cases rest with
      | nil => cases hhead
      | cons c text =>
        obtain rfl := Option.some.inj hhead
        exact ⟨text, rfl⟩
    rw [List.tail_cons] at h
    obtain ⟨⟨flags, has, text'⟩, hflags⟩ : ∃ r, parseFlags p.flags false text = r := ⟨_, rfl⟩
    rw [hflags] at h
    obtain ⟨set, rfl, hadd, hhas⟩ := parseFlags_sound hflags
    simp only at h
    rcases text' with _ | ⟨c, text'⟩
    · cases h
    · simp only at h
      by_cases hc : c = ch ':'
      · rw [if_pos hc] at h
        subst hc
        obtain ⟨⟨inner, q⟩, hinner, h⟩ := bind_eq_ok.mp h
        obtain ⟨q', hclose, h⟩ := bind_eq_ok.mp h
        cases h
        obtain ⟨rest', hq, rfl⟩ := closeGroup_iff.mp hclose
        exact ⟨_, _, rfl, .flagged (q := q) hp hadd (ih.regex hinner).1 hq⟩
      · rw [if_neg hc] at h
        by_cases hset : c = ch ')' ∧ has = true
        · rw [if_pos hset] at h
          cases h
          obtain ⟨rfl, h0⟩ := hset
          refine ⟨_, _, rfl, .setFlags hp ?_ hadd⟩
          obtain h0 | h0 := hhas h0
          · cases h0
          · exact h0
        · rw [if_neg hset] at h
          cases h
  · simp only [if_neg hhead] at h
    obtain ⟨⟨inner, q⟩, hinner, h⟩ := bind_eq_ok.mp h
    obtain ⟨q', hclose, h⟩ := bind_eq_ok.mp h
    cases h
    obtain ⟨rest', hq, rfl⟩ := closeGroup_iff.mp hclose
    exact ⟨_, _, rfl, .group hp hhead (ih.regex hinner).1 hq⟩

theorem soundAt (n : Nat) : SoundAt n := by
  induction n with
  | zero => constructor <;> intros <;> simp_all [parseRegex, parseBranches, parseConcat, parseParts,
      parseRepeat, parseAtom, parseGroup]
  | succ n ih =>
    refine ⟨?_, ?_, ?_, ?_, ?_, ?_, ?_, ?_, fun h hp => ih.group_succ h hp⟩
    · intro p a q h
      rw [parseRegex] at h
      obtain ⟨⟨first, p1⟩, hfirst, h⟩ := bind_eq_ok.mp h
      obtain ⟨⟨branches, p2⟩, hbranches, h⟩ := bind_eq_ok.mp h
      cases h
      obtain ⟨h1, hno⟩ := ih.concat hfirst
      obtain ⟨h2, hends⟩ := ih.branches hbranches hno
      exact ⟨.regex h1 h2, hends⟩
    · intro p bs q h hno
      rw [parseBranches] at h
      rcases hp : p.rest with _ | ⟨c, rest⟩
      · simp only [hp] at h
        cases h
        refine ⟨.noBranch, hno, ?_⟩
        rw [hp]
        exact nofun
      · simp only [hp] at h
        by_cases hc : c = ch '|'
        · rw [if_pos hc] at h
          subst hc
          obtain ⟨⟨b, p1⟩, hb, h⟩ := bind_eq_ok.mp h
          obtain ⟨⟨bs', p2⟩, hbs, h⟩ := bind_eq_ok.mp h
          cases h
          obtain ⟨h1, hno1⟩ := ih.concat hb
          obtain ⟨h2, hends⟩ := ih.branches hbs hno1
          exact ⟨.branch hp h1 h2, hends⟩
        · rw [if_neg hc] at h
          cases h
          refine ⟨.noBranch, hno, ?_⟩
          rw [hp]
          rintro d ⟨⟩
          exact hc
    · intro p a q h
      rw [parseConcat] at h
      obtain ⟨⟨parts, p1⟩, hparts, h⟩ := bind_eq_ok.mp h
      cases h
      obtain ⟨h1, hno⟩ := ih.parts hparts
      exact ⟨.concat h1, hno⟩
    · intro p as q h
      rw [parseParts] at h
      rcases hp : p.rest with _ | ⟨c, rest⟩
      · simp only [hp] at h
        cases h
        exact ⟨.noPart, noAtom_of_nil hp⟩
      · simp only [hp] at h
        by_cases hc : c = ch '|' ∨ c = ch ')'
        · rw [if_pos hc] at h
          cases h
          exact ⟨.noPart, noAtom_of_cons hp (by tauto)⟩
        · rw [if_neg hc] at h
          obtain ⟨_ | ⟨part, p1⟩, hr, h⟩ := bind_eq_ok.mp h
          · cases h
            exact ⟨.noPart, ih.noRepeat hr⟩
          · obtain ⟨⟨parts, p2⟩, hparts, h⟩ := bind_eq_ok.mp h
            cases h
            obtain ⟨h2, hno⟩ := ih.parts hparts
            exact ⟨.part (ih.repeated hr) h2, hno⟩
    · intro p h
      rw [parseRepeat] at h
      obtain ⟨_ | ⟨atom, p1⟩, ha, h⟩ := bind_eq_ok.mp h
      · exact ih.noAtom ha
      · obtain ⟨⟨part, p2⟩, -, h⟩ := bind_eq_ok.mp h
        cases h
    · intro p a q h
      rw [parseRepeat] at h
      obtain ⟨_ | ⟨atom, p1⟩, ha, h⟩ := bind_eq_ok.mp h
      · cases h
      · obtain ⟨⟨part, p2⟩, hr, h⟩ := bind_eq_ok.mp h
        cases h
        have hatom := ih.atom ha
        cases parseQuantifier_iff.mp hr with
        | bare hb => exact .bare hatom hb
        | quantified hq => exact .quantified hatom hq
    · intro p h
      rw [parseAtom] at h
      rcases hp : p.rest with _ | ⟨c, rest⟩
      · exact noAtom_of_nil hp
      · simp only [hp] at h
        by_cases hc : c = ch '('
        · rw [if_pos hc] at h
          obtain ⟨a, q, h0, -⟩ := ih.group h (by rw [hp, hc])
          cases h0
        · rw [if_neg hc] at h
          by_cases hno : c = ch ')' ∨ c = ch '|' ∨ c = ch '*' ∨ c = ch '+' ∨ c = ch '?'
          · exact noAtom_of_cons hp hno
          · rw [if_neg hno] at h
            obtain ⟨⟨atom, p1⟩, -, h⟩ := bind_eq_ok.mp h
            cases h
    · intro p a q h
      rw [parseAtom] at h
      rcases hp : p.rest with _ | ⟨c, rest⟩
      · simp only [hp] at h
        cases h
      · simp only [hp] at h
        by_cases hc : c = ch '('
        · rw [if_pos hc] at h
          obtain ⟨a', q', h0, hd⟩ := ih.group h (by rw [hp, hc])
          cases h0
          exact hd
        · rw [if_neg hc] at h
          by_cases hno : c = ch ')' ∨ c = ch '|' ∨ c = ch '*' ∨ c = ch '+' ∨ c = ch '?'
          · rw [if_pos hno] at h
            cases h
          · rw [if_neg hno] at h
            obtain ⟨⟨atom, p1⟩, hl, h⟩ := bind_eq_ok.mp h
            cases h
            exact .leaf (parseLeaf_sound hp ⟨hc, hno⟩ hl)

/-! ### The fuel -/

theorem Laziness.length {text rest : List Byte} {greedy : Bool} (h : Laziness text greedy rest) :
    rest.length ≤ text.length := by
  cases h with
  | lazy => exact Nat.le_succ _
  | greedy => exact Nat.le_refl _

theorem Count.length {text rest : List Byte} {n : Nat} {max : Option Nat}
    (h : Count text n max rest) : rest.length ≤ text.length := by
  cases h <;> simp only [List.length_append, List.length_cons] <;> omega

theorem Quantifier.length {text rest : List Byte} {min : Nat} {max : Option Nat} {greedy : Bool}
    (h : Quantifier text min max greedy rest) : rest.length < text.length := by
  cases h with
  | simple _ hl => exact Nat.lt_succ_of_le hl.length
  | counted hc _ hl => exact Nat.lt_succ_of_le (Nat.le_trans hl.length hc.length)

/-- The kinds that stand for some bytes at least. -/
def Kind.takes : Kind → Nat
  | .repeated => 1
  | .atom => 1
  | _ => 0

theorem Derives.length {k : Kind} {p q : Parser} {asts : List Ast} (h : Derives k p asts q) :
    q.rest.length + k.takes ≤ p.rest.length := by
  induction h with
  | regex _ _ ih1 ih2 => exact Nat.le_trans ih2 (Nat.le_trans (Nat.le_add_right _ _) ih1)
  | noBranch => exact Nat.le_refl _
  | branch hp _ _ ih1 ih2 =>
    rw [hp]
    exact Nat.le_succ_of_le (Nat.le_trans ih2 (Nat.le_trans (Nat.le_add_right _ _) ih1))
  | concat _ ih => exact ih
  | noPart => exact Nat.le_refl _
  | part _ _ ih1 ih2 => exact Nat.le_trans ih2 (Nat.le_trans (Nat.le_add_right _ _) ih1)
  | bare _ _ ih => exact ih
  | quantified _ hq ih => exact Nat.le_trans hq.length (Nat.le_trans (Nat.le_add_right _ _) ih)
  | leaf hl => exact hl.length
  | group hp _ _ hq ih =>
    rw [hq] at ih
    rw [hp]
    exact Nat.le_succ_of_le ih
  | flagged hp _ _ hq ih =>
    rw [hq] at ih
    rw [hp]
    have ih : _ + 1 ≤ _ := ih
    simp only [Kind.takes, List.length_cons, List.length_append] at ih ⊢
    omega
  | setFlags hp =>
    rw [hp]
    simp only [Kind.takes, List.length_cons, List.length_append]
    omega

theorem parseClassRange_ne_spent (c : Byte) (text : List Byte) :
    parseClassRange c text ≠ .error .spent := by
  rcases text with _ | ⟨d, _ | ⟨x, rest⟩⟩
  · exact nofun
  · exact nofun
  · rw [parseClassRange_cons]
    split
    · split
      · cases rest <;> exact nofun
      · exact nofun
    · exact nofun

theorem parseClassItem_ne_spent (text : List Byte) : parseClassItem text ≠ .error .spent := by
  rcases text with _ | ⟨c, rest⟩
  · rintro ⟨⟩
  · rw [parseClassItem]
    split
    · rcases rest with _ | ⟨e, rest⟩
      · rintro ⟨⟩
      · rw [parseClassEscape]
        split
        · rintro ⟨⟩
        · exact parseClassRange_ne_spent _ _
    · exact parseClassRange_ne_spent _ _

theorem parseClassItems_ne_spent (n : Nat) (first : Bool) (text : List Byte) :
    parseClassItems n first text ≠ .error .spent := by
  induction n generalizing first text with
  | zero => rintro ⟨⟩
  | succ n ih =>
    rcases text with _ | ⟨c, rest⟩
    · rintro ⟨⟩
    · rw [parseClassItems]
      split
      · rintro ⟨⟩
      · intro h
        obtain h | ⟨⟨rs, rest1⟩, -, h⟩ := bind_eq_error.mp h
        · exact parseClassItem_ne_spent _ h
        · obtain h | ⟨⟨more, rest2⟩, -, h⟩ := bind_eq_error.mp h
          · exact ih _ _ h
          · cases h

theorem parseEscape_ne_spent (p : Parser) (text : List Byte) :
    parseEscape p text ≠ .error .spent := by
  rcases text with _ | ⟨e, rest⟩
  · rintro ⟨⟩
  · rw [parseEscape]
    split
    · rintro ⟨⟩
    split
    · rintro ⟨⟩
    split
    · rintro ⟨⟩
    split
    · rintro ⟨⟩
    split <;> rintro ⟨⟩

theorem parseLeaf_ne_spent (p : Parser) (c : Byte) (rest : List Byte) :
    parseLeaf p c rest ≠ .error .spent := by
  rw [parseLeaf]
  split
  · rintro ⟨⟩
  split
  · rintro ⟨⟩
  split
  · rintro ⟨⟩
  split
  · intro h
    obtain h | ⟨⟨ranges, rest⟩, -, h⟩ := bind_eq_error.mp h
    · exact parseClassItems_ne_spent _ _ _ h
    · cases h
  split
  · exact parseEscape_ne_spent p rest
  · rintro ⟨⟩

theorem parseQuantifier_ne_spent (atom : Ast) (p : Parser) :
    parseQuantifier atom p ≠ .error .spent := by
  rw [parseQuantifier]
  split
  · rintro ⟨⟩
  · split
    · rintro ⟨⟩
    · split
      · split
        · rintro ⟨⟩
        · split <;> rintro ⟨⟩
      · rintro ⟨⟩

theorem closeGroup_ne_spent (p : Parser) : closeGroup p ≠ .error .spent := by
  rw [closeGroup]
  split
  · exact nofun
  · split <;> exact nofun

/-- With fuel `n`, each function has enough of it for a text that is short enough. -/
structure TotalAt (n : Nat) : Prop where
  regex : ∀ p, 6 * p.rest.length + 6 ≤ n → parseRegex n p ≠ .error .spent
  branches : ∀ p, 6 * p.rest.length + 1 ≤ n → parseBranches n p ≠ .error .spent
  concat : ∀ p, 6 * p.rest.length + 5 ≤ n → parseConcat n p ≠ .error .spent
  parts : ∀ p, 6 * p.rest.length + 4 ≤ n → parseParts n p ≠ .error .spent
  repeated : ∀ p, 6 * p.rest.length + 3 ≤ n → parseRepeat n p ≠ .error .spent
  atom : ∀ p, 6 * p.rest.length + 2 ≤ n → parseAtom n p ≠ .error .spent
  group : ∀ p, 6 * p.rest.length + 7 ≤ n → parseGroup n p ≠ .error .spent

theorem TotalAt.group_succ {n : Nat} (ih : TotalAt n) {p : Parser}
    (hn : 6 * p.rest.length + 7 ≤ n + 1) : parseGroup (n + 1) p ≠ .error .spent := by
  have hin : ∀ {q : Parser} {f : Ast → Parser → Option (Ast × Parser)},
      q.rest.length ≤ p.rest.length →
      (parseRegex n q >>= fun r => closeGroup r.2 >>= fun q => pure (f r.1 q)) ≠
        .error Stop.spent := by
    intro q f hq h
    obtain h | ⟨⟨inner, q'⟩, -, h⟩ := bind_eq_error.mp h
    · exact ih.regex q (by omega) h
    · obtain h | ⟨q'', -, h⟩ := bind_eq_error.mp h
      · exact closeGroup_ne_spent _ h
      · cases h
  rw [parseGroup]
  by_cases hhead : p.rest.head? = some (ch '?')
  · simp only [if_pos hhead]
    obtain ⟨⟨flags, has, text⟩, hflags⟩ : ∃ r, parseFlags p.flags false p.rest.tail = r := ⟨_, rfl⟩
    obtain ⟨set, htail, -, -⟩ := parseFlags_sound hflags
    have hlen : text.length ≤ p.rest.length := by
      have h1 := congrArg List.length htail
      rw [List.length_append, List.length_tail] at h1
      omega
    rw [hflags]
    rcases text with _ | ⟨c, text⟩
    · exact nofun
    · simp only
      rw [List.length_cons] at hlen
      split
      · exact hin (q := { p with rest := text, flags })
          (f := fun a q => some (a, { q with flags := p.flags })) (by change text.length ≤ _; omega)
      · split <;> exact nofun
  · simp only [if_neg hhead]
    exact hin (q := { p with groupCount := p.groupCount + 1 })
      (f := fun a q => some (.group a p.groupCount, q)) (Nat.le_refl _)

theorem totalAt (n : Nat) : TotalAt n := by
  induction n with
  | zero => constructor <;> intro p h <;> omega
  | succ n ih =>
    have hsound := soundAt n
    refine ⟨?_, ?_, ?_, ?_, ?_, ?_, fun p hn => ih.group_succ hn⟩
    · intro p hn h
      rw [parseRegex] at h
      obtain h | ⟨⟨first, p1⟩, hfirst, h⟩ := bind_eq_error.mp h
      · exact ih.concat p (by omega) h
      · obtain h | ⟨⟨branches, p2⟩, -, h⟩ := bind_eq_error.mp h
        · have := (hsound.concat hfirst).1.length
          exact ih.branches p1 (by omega) h
        · cases h
    · intro p hn h
      rw [parseBranches] at h
      rcases hp : p.rest with _ | ⟨c, rest⟩
      · simp only [hp] at h
        cases h
      · simp only [hp] at h
        have hlen := congrArg List.length hp
        rw [List.length_cons] at hlen
        by_cases hc : c = ch '|'
        · rw [if_pos hc] at h
          obtain h | ⟨⟨b, p1⟩, hb, h⟩ := bind_eq_error.mp h
          · exact ih.concat { p with rest } (by change 6 * rest.length + 5 ≤ n; omega) h
          · obtain h | ⟨⟨bs, p2⟩, -, h⟩ := bind_eq_error.mp h
            · have hb : p1.rest.length + 0 ≤ rest.length := (hsound.concat hb).1.length
              exact ih.branches p1 (by omega) h
            · cases h
        · rw [if_neg hc] at h
          cases h
    · intro p hn h
      rw [parseConcat] at h
      obtain h | ⟨⟨parts, p1⟩, -, h⟩ := bind_eq_error.mp h
      · exact ih.parts p (by omega) h
      · cases h
    · intro p hn h
      rw [parseParts] at h
      rcases hp : p.rest with _ | ⟨c, rest⟩
      · simp only [hp] at h
        cases h
      · simp only [hp] at h
        by_cases hc : c = ch '|' ∨ c = ch ')'
        · rw [if_pos hc] at h
          cases h
        · rw [if_neg hc] at h
          obtain h | ⟨_ | ⟨part, p1⟩, hr, h⟩ := bind_eq_error.mp h
          · exact ih.repeated p (by omega) h
          · cases h
          · obtain h | ⟨⟨parts, p2⟩, -, h⟩ := bind_eq_error.mp h
            · have hlt : p1.rest.length + 1 ≤ p.rest.length := (hsound.repeated hr).length
              exact ih.parts p1 (by omega) h
            · cases h
    · intro p hn h
      rw [parseRepeat] at h
      obtain h | ⟨_ | ⟨atom, p1⟩, -, h⟩ := bind_eq_error.mp h
      · exact ih.atom p (by omega) h
      · cases h
      · obtain h | ⟨⟨part, p2⟩, -, h⟩ := bind_eq_error.mp h
        · exact parseQuantifier_ne_spent _ _ h
        · cases h
    · intro p hn h
      rw [parseAtom] at h
      rcases hp : p.rest with _ | ⟨c, rest⟩
      · simp only [hp] at h
        cases h
      · simp only [hp] at h
        have hlen := congrArg List.length hp
        rw [List.length_cons] at hlen
        by_cases hc : c = ch '('
        · rw [if_pos hc] at h
          exact ih.group { p with rest } (by change 6 * rest.length + 7 ≤ n; omega) h
        · rw [if_neg hc] at h
          by_cases hno : c = ch ')' ∨ c = ch '|' ∨ c = ch '*' ∨ c = ch '+' ∨ c = ch '?'
          · rw [if_pos hno] at h
            cases h
          · rw [if_neg hno] at h
            obtain h | ⟨⟨atom, p1⟩, -, h⟩ := bind_eq_error.mp h
            · exact parseLeaf_ne_spent _ _ _ h
            · cases h

/-! ### What can be derived is found -/

/-- Unless its fuel is spent, the function for `k` comes to what was derived, if the text that is
left does not go on. -/
def Finds : Kind → Nat → Parser → List Ast → Parser → Prop
  | .regex, n, p, asts, q => Ends q → parseRegex n p ≠ .error .spent →
    ∃ a, asts = [a] ∧ parseRegex n p = .ok (a, q)
  | .branches, n, p, asts, q => Ends q → parseBranches n p ≠ .error .spent →
    parseBranches n p = .ok (asts, q)
  | .concat, n, p, asts, q => NoAtom q → parseConcat n p ≠ .error .spent →
    ∃ a, asts = [a] ∧ parseConcat n p = .ok (a, q)
  | .parts, n, p, asts, q => NoAtom q → parseParts n p ≠ .error .spent →
    parseParts n p = .ok (asts, q)
  | .repeated, n, p, asts, q => parseRepeat n p ≠ .error .spent →
    ∃ a, asts = [a] ∧ parseRepeat n p = .ok (some (a, q))
  | .atom, n, p, asts, q => parseAtom n p ≠ .error .spent →
    ∃ a, asts = [a] ∧ parseAtom n p = .ok (some (a, q))

theorem ne_of_bind {ε α β : Type} {x : Except ε α} {f : α → Except ε β} {e : ε}
    (h : x >>= f ≠ .error e) : x ≠ .error e :=
  fun hx => h (bind_eq_error.mpr (.inl hx))

theorem Derives.noAtom_of_branches {p q : Parser} {asts : List Ast}
    (h : Derives .branches p asts q) (hq : NoAtom q) : NoAtom p := by
  cases h with
  | noBranch => exact hq
  | branch hp _ _ => exact noAtom_of_cons hp (.inr (.inl rfl))

/-- An atom begins with a byte that the parser takes. -/
theorem Derives.atom_head {k : Kind} {p q : Parser} {asts : List Ast} (h : Derives k p asts q)
    (hk : k = .repeated ∨ k = .atom) :
    ∃ c rest, p.rest = c :: rest ∧ (c = ch '(' ∨ IsLeafByte c) := by
  induction h with
  | bare _ _ ih => exact ih (.inr rfl)
  | quantified _ _ ih => exact ih (.inr rfl)
  | leaf hl =>
    obtain ⟨c, rest, hp, hc, -⟩ := parseLeaf_complete hl
    exact ⟨c, rest, hp, .inr hc⟩
  | group hp => exact ⟨_, _, hp, .inl rfl⟩
  | flagged hp => exact ⟨_, _, hp, .inl rfl⟩
  | setFlags hp => exact ⟨_, _, hp, .inl rfl⟩
  | regex | noBranch | branch | concat | noPart | part => simp at hk

theorem parseRepeat_noAtom {n : Nat} {p : Parser} (hno : NoAtom p)
    (hne : parseRepeat n p ≠ .error .spent) : parseRepeat n p = .ok none := by
  rcases n with _ | n
  · exact absurd rfl hne
  rw [parseRepeat] at hne ⊢
  have hatom := ne_of_bind hne
  rcases n with _ | n
  · exact absurd rfl hatom
  have hnone : parseAtom (n + 1) p = .ok none := by
    rw [parseAtom]
    rcases hp : p.rest with _ | ⟨c, rest⟩
    · rfl
    · have hc := hno c (by rw [hp]; rfl)
      have hparen : c ≠ ch '(' := by
        obtain rfl | rfl | rfl | rfl | rfl := hc <;> decide
      simp only
      rw [if_neg hparen, if_pos hc]
      rfl
  rw [hnone]
  rfl

/-- **Derivations are found**, by induction on them. -/
theorem Derives.finds {k : Kind} {p q : Parser} {asts : List Ast} (h : Derives k p asts q)
    (n : Nat) : Finds k n p asts q := by
  induction h generalizing n with
  | @regex p q r first branches hfirst hbranches ih1 ih2 =>
    intro hends hne
    rcases n with _ | n
    · exact absurd rfl hne
    rw [parseRegex] at hne ⊢
    obtain ⟨a, heq, hc⟩ := ih1 n (hbranches.noAtom_of_branches hends.1) (ne_of_bind hne)
    cases heq
    rw [hc] at hne ⊢
    change parseBranches n q >>= _ ≠ _ at hne
    have hb := ih2 n hends (ne_of_bind hne)
    refine ⟨_, rfl, ?_⟩
    change parseBranches n q >>= _ = _
    rw [hb]
    rfl
  | @noBranch p =>
    intro hends hne
    rcases n with _ | n
    · exact absurd rfl hne
    rw [parseBranches]
    rcases hp : p.rest with _ | ⟨c, rest⟩
    · rfl
    · simp only
      rw [if_neg (hends.2 c (by rw [hp]; rfl))]
      rfl
  | @branch p q r rest first branches hp hfirst hbranches ih1 ih2 =>
    intro hends hne
    rcases n with _ | n
    · exact absurd rfl hne
    rw [parseBranches] at hne ⊢
    simp only [hp, if_pos] at hne ⊢
    obtain ⟨a, heq, hc⟩ := ih1 n (hbranches.noAtom_of_branches hends.1) (ne_of_bind hne)
    cases heq
    rw [hc] at hne ⊢
    change parseBranches n q >>= _ ≠ _ at hne
    have hb := ih2 n hends (ne_of_bind hne)
    change parseBranches n q >>= _ = _
    rw [hb]
    rfl
  | @concat p q parts _ ih =>
    intro hno hne
    rcases n with _ | n
    · exact absurd rfl hne
    rw [parseConcat] at hne ⊢
    rw [ih n hno (ne_of_bind hne)]
    exact ⟨_, rfl, rfl⟩
  | @noPart p =>
    intro hno hne
    rcases n with _ | n
    · exact absurd rfl hne
    rw [parseParts] at hne ⊢
    rcases hp : p.rest with _ | ⟨c, rest⟩
    · rfl
    · simp only [hp] at hne ⊢
      by_cases hc : c = ch '|' ∨ c = ch ')'
      · rw [if_pos hc]
        rfl
      · rw [if_neg hc] at hne ⊢
        rw [parseRepeat_noAtom hno (ne_of_bind hne)]
        rfl
  | @part p q r first parts hfirst _ ih1 ih2 =>
    intro hno hne
    rcases n with _ | n
    · exact absurd rfl hne
    rw [parseParts] at hne ⊢
    obtain ⟨c, rest, hp, hhead⟩ := hfirst.atom_head (.inl rfl)
    have hc : ¬ (c = ch '|' ∨ c = ch ')') := by
      obtain rfl | hleaf := hhead
      · decide
      · rintro (rfl | rfl)
        · exact hleaf.2 (.inr (.inl rfl))
        · exact hleaf.2 (.inl rfl)
    simp only [hp] at hne ⊢
    rw [if_neg hc] at hne ⊢
    obtain ⟨a, heq, hr⟩ := ih1 n (ne_of_bind hne)
    cases heq
    rw [hr] at hne ⊢
    change parseParts n q >>= _ ≠ _ at hne
    have hb := ih2 n hno (ne_of_bind hne)
    change parseParts n q >>= _ = _
    rw [hb]
    rfl
  | @bare p q atom _ hb ih =>
    intro hne
    rcases n with _ | n
    · exact absurd rfl hne
    rw [parseRepeat] at hne ⊢
    obtain ⟨a, heq, ha⟩ := ih n (ne_of_bind hne)
    cases heq
    rw [ha]
    refine ⟨_, rfl, ?_⟩
    change parseQuantifier atom q >>= _ = _
    rw [parseQuantifier_iff.mpr (.bare hb)]
    rfl
  | @quantified p q atom min max greedy rest _ hq ih =>
    intro hne
    rcases n with _ | n
    · exact absurd rfl hne
    rw [parseRepeat] at hne ⊢
    obtain ⟨a, heq, ha⟩ := ih n (ne_of_bind hne)
    cases heq
    rw [ha]
    refine ⟨_, rfl, ?_⟩
    change parseQuantifier atom q >>= _ = _
    rw [parseQuantifier_iff.mpr (.quantified hq)]
    rfl
  | @leaf p q atom hl =>
    intro hne
    rcases n with _ | n
    · exact absurd rfl hne
    obtain ⟨c, rest, hp, hc, hgo⟩ := parseLeaf_complete hl
    rw [parseAtom]
    simp only [hp]
    rw [if_neg hc.1, if_neg hc.2, hgo]
    exact ⟨_, rfl, rfl⟩
  | @group p q text rest inner hp hhead _ hq ih =>
    intro hne
    rcases n with _ | n
    · exact absurd rfl hne
    rw [parseAtom] at hne ⊢
    simp only [hp, if_pos] at hne ⊢
    rcases n with _ | n
    · exact absurd rfl hne
    rw [parseGroup] at hne ⊢
    simp only [if_neg hhead] at hne ⊢
    have hends : Ends q := by
      refine ⟨noAtom_of_cons hq (.inl rfl), ?_⟩
      rw [hq]
      rintro c ⟨⟩
      decide
    obtain ⟨a, heq, hr⟩ := ih n hends (ne_of_bind hne)
    cases heq
    rw [hr]
    refine ⟨_, rfl, ?_⟩
    change closeGroup q >>= _ = _
    rw [closeGroup_iff.mpr ⟨rest, hq, rfl⟩]
    rfl
  | @flagged p q set text rest flags inner hp hadd _ hq ih =>
    intro hne
    rcases n with _ | n
    · exact absurd rfl hne
    rw [parseAtom] at hne ⊢
    simp only [hp, if_pos] at hne ⊢
    rcases n with _ | n
    · exact absurd rfl hne
    have hflags := parseFlags_complete false text hadd
      (show setFlag flags (ch ':') = none from rfl)
    have hgroup : ∀ p' : Parser, p'.rest = ch '?' :: (set ++ ch ':' :: text) →
        p'.flags = p.flags → p'.groupCount = p.groupCount → parseGroup (n + 1) p' =
          parseRegex n { p with rest := text, flags } >>= fun r =>
            closeGroup r.2 >>= fun q => pure (some (r.1, { q with flags := p.flags })) := by
      intro p' h1 h2 h3
      rw [parseGroup, if_pos (by rw [h1]; rfl), h1, List.tail_cons, h2, hflags]
      simp only [if_pos, h3]
    rw [hgroup { p with rest := ch '?' :: (set ++ ch ':' :: text) } rfl rfl rfl] at hne ⊢
    have hends : Ends q := by
      refine ⟨noAtom_of_cons hq (.inl rfl), ?_⟩
      rw [hq]
      rintro c ⟨⟩
      decide
    obtain ⟨a, heq, hr⟩ := ih n hends (ne_of_bind hne)
    cases heq
    rw [hr]
    refine ⟨_, rfl, ?_⟩
    change closeGroup q >>= _ = _
    rw [closeGroup_iff.mpr ⟨rest, hq, rfl⟩]
    rfl
  | @setFlags p set rest flags hp hset hadd =>
    intro hne
    rcases n with _ | n
    · exact absurd rfl hne
    rw [parseAtom] at hne ⊢
    simp only [hp, if_pos] at hne ⊢
    rcases n with _ | n
    · exact absurd rfl hne
    have hflags := parseFlags_complete false rest hadd
      (show setFlag flags (ch ')') = none from rfl)
    have hsome : (false || !set.isEmpty) = true := by
      cases set with
      | nil => exact absurd rfl hset
      | cons => rfl
    have hhead : (Parser.mk (ch '?' :: (set ++ ch ')' :: rest)) p.groupCount p.flags).rest.head? =
        some (ch '?') := rfl
    refine ⟨_, rfl, ?_⟩
    rw [parseGroup, if_pos hhead]
    simp only [List.tail_cons, hflags, hsome]
    rw [if_neg (by decide), if_pos ⟨trivial, trivial⟩]
    rfl

/-! ### The whole pattern -/

/-- The parser's own run on a pattern. -/
def parsed (pattern : List Byte) : Except Stop (Ast × Parser) :=
  parseRegex (6 * pattern.length + 6) (start pattern)

theorem parsed_ne_spent (pattern : List Byte) : parsed pattern ≠ .error .spent :=
  (totalAt _).regex (start pattern) (Nat.le_refl _)

theorem Derives.parsed {pattern : List Byte} {ast : Ast} {q : Parser}
    (h : Derives .regex (start pattern) [ast] q) (hends : Ends q) :
    parsed pattern = .ok (ast, q) := by
  obtain ⟨a, heq, hr⟩ := h.finds _ hends (parsed_ne_spent pattern)
  cases heq
  exact hr

theorem ends_of_nil {q : Parser} (h : q.rest = []) : Ends q :=
  ⟨noAtom_of_nil h, by rw [h]; exact nofun⟩

theorem ends_of_quantifier {q : Parser} {c : Byte} {rest : List Byte} (h : q.rest = c :: rest)
    (hc : c = ch '*' ∨ c = ch '+' ∨ c = ch '?') : Ends q := by
  refine ⟨noAtom_of_cons h (.inr (.inr hc)), ?_⟩
  rw [h]
  rintro d ⟨⟩
  obtain rfl | rfl | rfl := hc <;> decide

/-- The parser goes by what is left at the end. -/
theorem nfaParse_of_parsed {pattern : List Byte} {ast : Ast} {q : Parser}
    (h : parsed pattern = .ok (ast, q)) :
    nfaParse pattern =
      if q.rest.head? = some (ch ')') then .error (.error .unmatchedRparen) else .ok ast := by
  rw [parsed] at h
  simp only [nfaParse, h, bind, Except.bind, fail, pure, Except.pure]

theorem nfaParse_of_error {pattern : List Byte} {e : Stop} (h : parsed pattern = .error e) :
    nfaParse pattern = .error e := by
  rw [parsed] at h
  rw [nfaParse, h]
  rfl

/-- Every sentence of the grammar is accepted, as what it stands for. -/
theorem Sentence.nfaParse {pattern : List Byte} {ast : Ast} (h : Sentence pattern ast) :
    nfaParse pattern = .ok ast := by
  obtain ⟨q, hd, hq⟩ := h
  rw [nfaParse_of_parsed (hd.parsed (ends_of_nil hq)), if_neg]
  rw [hq]
  exact nofun

/-- The parser ends, with a tree for the whole of the pattern or with an error. -/
structure ReadsWhole (pattern : List Byte) : Prop where
  ends : nfaParse pattern ≠ .error .spent
  whole : ∀ ast, nfaParse pattern = .ok ast → Sentence pattern ast
  outside : (¬ ∃ ast, Sentence pattern ast) → ∃ e, nfaParse pattern = .error (.error e)

theorem nfaParse_ne_spent (pattern : List Byte) : nfaParse pattern ≠ .error .spent := by
  intro h
  cases hp : parsed pattern with
  | error e =>
    rw [nfaParse_of_error hp] at h
    cases h
    exact parsed_ne_spent pattern hp
  | ok r =>
    rw [nfaParse_of_parsed hp] at h
    split at h <;> cases h

/-- **A pattern is read to its end, unless a quantifier at the top level has nothing to repeat.** -/
theorem readsWhole_iff (pattern : List Byte) : ReadsWhole pattern ↔ ¬ CutShort pattern := by
  constructor
  · rintro h ⟨ast, q, c, rest, hd, hq, hc⟩
    have hp := hd.parsed (ends_of_quantifier hq hc)
    have hne : ¬ q.rest.head? = some (ch ')') := by
      rw [hq]
      rintro heq
      cases heq
      revert hc
      decide
    have hok := nfaParse_of_parsed hp
    rw [if_neg hne] at hok
    obtain ⟨q', hd', hq'⟩ := h.whole ast hok
    have heq := hp.symm.trans (hd'.parsed (ends_of_nil hq'))
    cases heq
    rw [hq] at hq'
    cases hq'
  · intro hcut
    have hwhole : ∀ ast, nfaParse pattern = .ok ast → Sentence pattern ast := by
      intro ast hok
      cases hp : parsed pattern with
      | error e =>
        rw [nfaParse_of_error hp] at hok
        cases hok
      | ok r =>
        obtain ⟨a, q⟩ := r
        rw [nfaParse_of_parsed hp] at hok
        by_cases hhead : q.rest.head? = some (ch ')')
        · rw [if_pos hhead] at hok
          cases hok
        · rw [if_neg hhead] at hok
          cases hok
          obtain ⟨hd, hno, hbar⟩ := (soundAt _).regex hp
          refine ⟨q, hd, ?_⟩
          rcases hq : q.rest with _ | ⟨c, rest⟩
          · rfl
          · rw [hq] at hhead hbar
            refine absurd ⟨ast, q, c, rest, hd, hq, ?_⟩ hcut
            have h1 := hno c (by rw [hq]; rfl)
            have h2 : c ≠ ch ')' := fun h => hhead (by rw [h]; rfl)
            have h3 := hbar c rfl
            tauto
    refine ⟨nfaParse_ne_spent pattern, hwhole, fun hout => ?_⟩
    cases hok : nfaParse pattern with
    | ok ast => exact absurd ⟨ast, hwhole ast hok⟩ hout
    | error e =>
      cases e with
      | error e => exact ⟨e, rfl⟩
      | spent => exact absurd hok (nfaParse_ne_spent pattern)

/-- Of `a**b` only `a*` is read. -/
theorem not_readsWhole :
    nfaParse [97, 42, 42, 98] = .ok (.repeated (.literal [97] false) 0 none true) ∧
      ¬ ReadsWhole [97, 42, 42, 98] := by
  have hp : parsed [97, 42, 42, 98] =
      .ok (.repeated (.literal [97] false) 0 none true, ⟨[42, 98], 0, ⟨false, false, false⟩⟩) := rfl
  have hok : nfaParse [97, 42, 42, 98] = .ok (.repeated (.literal [97] false) 0 none true) := rfl
  refine ⟨hok, fun h => ?_⟩
  obtain ⟨q, hd, hq⟩ := h.whole _ hok
  have heq := hp.symm.trans (hd.parsed (ends_of_nil hq))
  cases heq
  cases hq

end Jacl.Regex
