import Jacl.Readers
import Jacl.Regex

/-!
# The grammar of regular expressions

`Derives k p asts q`: from `p`, a text of the grammar's kind `k` leads to `q` and stands for `asts`.
Flags and the numbers of groups are handed along with the text.  A repetition is of the atom
before it wherever the text goes on as one; a `{` that does not is an atom of its own.

The parser never runs out of its fuel, what it accepts it has derived, and what can be derived it
finds; but at the top level it stops before a quantifier that has nothing to repeat, and does not
say so.
-/

namespace Jacl.Regex

/-! ### Classes -/

/-- A character of a class, as it stands or escaped. -/
inductive ClassChar : List Byte → Byte → List Byte → Prop
  | plain {c : Byte} {rest : List Byte} : c ≠ ch '\\' → ClassChar (c :: rest) c rest
  | escaped {e : Byte} {rest : List Byte} : classShorthand e = none →
      ClassChar (ch '\\' :: e :: rest) e rest

/-- The upper end of a range. -/
inductive RangeEnd : List Byte → Byte → List Byte → Prop
  | plain {c : Byte} {rest : List Byte} : c ≠ ch ']' → c ≠ ch '\\' → RangeEnd (c :: rest) c rest
  | escaped {e : Byte} {rest : List Byte} : RangeEnd (ch '\\' :: e :: rest) e rest

/-- A `-` with something of the class after it. -/
def GoesOn (text : List Byte) : Prop := ∃ x rest, text = ch '-' :: x :: rest ∧ x ≠ ch ']'

inductive ClassItem : List Byte → List Range → List Byte → Prop
  | shorthand {e : Byte} {ranges : List Range} {rest : List Byte} :
      classShorthand e = some ranges → ClassItem (ch '\\' :: e :: rest) ranges rest
  | range {lo hi : Byte} {text rest rest' : List Byte} : ClassChar text lo (ch '-' :: rest) →
      RangeEnd rest hi rest' → ClassItem text [⟨lo, hi⟩] rest'
  | single {c : Byte} {text rest : List Byte} : ClassChar text c rest → ¬ GoesOn rest →
      ClassItem text [⟨c, c⟩] rest

/-- The members of a class up to the `]`, which is a member in the `first` place. -/
inductive ClassItems : Bool → List Byte → List Range → List Byte → Prop
  | close {rest : List Byte} : ClassItems false (ch ']' :: rest) [] rest
  | item {first : Bool} {text rest rest' : List Byte} {ranges more : List Range} :
      (text.head? = some (ch ']') → first = true) → ClassItem text ranges rest →
      ClassItems false rest more rest' → ClassItems first text (ranges ++ more) rest'

/-- A class after its `[`. -/
inductive Class : List Byte → Bool → List Range → List Byte → Prop
  | negated {text rest : List Byte} {ranges : List Range} : ClassItems true text ranges rest →
      Class (ch '^' :: text) true ranges rest
  | plain {text rest : List Byte} {ranges : List Range} : text.head? ≠ some (ch '^') →
      ClassItems true text ranges rest → Class text false ranges rest

/-! ### Quantifiers -/

def numberValue (digits : List Byte) : Nat := digits.foldl (fun n c => n * 10 + digit c) 0

/-- A decimal number up to the greatest count. -/
structure Number (digits : List Byte) (n : Nat) : Prop where
  ne_nil : digits ≠ []
  digit : ∀ c ∈ digits, isDigit c = true
  value : numberValue digits = n
  le : n ≤ repeatMax

/-- A counted repetition after its `{`. -/
inductive Count : List Byte → Nat → Option Nat → List Byte → Prop
  | exactly {ds rest : List Byte} {n : Nat} : Number ds n →
      Count (ds ++ ch '}' :: rest) n (some n) rest
  | atLeast {ds rest : List Byte} {n : Nat} : Number ds n →
      Count (ds ++ ch ',' :: ch '}' :: rest) n none rest
  | between {ds es rest : List Byte} {n m : Nat} : Number ds n → Number es m →
      Count (ds ++ ch ',' :: (es ++ ch '}' :: rest)) n (some m) rest

inductive Laziness : List Byte → Bool → List Byte → Prop
  | lazy {rest : List Byte} : Laziness (ch '?' :: rest) false rest
  | greedy {rest : List Byte} : rest.head? ≠ some (ch '?') → Laziness rest true rest

inductive Quantifier : List Byte → Nat → Option Nat → Bool → List Byte → Prop
  | simple {c : Byte} {min : Nat} {max : Option Nat} {greedy : Bool} {rest rest' : List Byte} :
      simpleQuantifier c = some (min, max) → Laziness rest greedy rest' →
      Quantifier (c :: rest) min max greedy rest'
  | counted {min : Nat} {max : Option Nat} {greedy : Bool} {rest rest' rest'' : List Byte} :
      Count rest min max rest' → (∀ m ∈ max, min ≤ m) → Laziness rest' greedy rest'' →
      Quantifier (ch '{' :: rest) min max greedy rest''

/-- No repetition begins here, well formed or not. -/
structure Bare (text : List Byte) : Prop where
  simple : ∀ c ∈ text.head?, simpleQuantifier c = none
  counted : ∀ rest, text = ch '{' :: rest → ∀ n m rest', ¬ Count rest n m rest'

/-! ### Atoms -/

/-- The bytes that are not literals as they stand. -/
def special : List Byte :=
  [ch '(', ch ')', ch '|', ch '*', ch '+', ch '?', ch '.', ch '^', ch '$', ch '[', ch '\\']

/-- How many bytes a literal has: what its first byte announces, if there are as many. -/
def literalLen (c : Byte) (text : List Byte) : Nat :=
  if text.length < utf8Len c then 1 else utf8Len c

inductive Leaf : Parser → Ast → Parser → Prop
  | dot {p : Parser} {rest : List Byte} : p.rest = ch '.' :: rest →
      Leaf p (.dot p.flags.dotAll) { p with rest }
  | bol {p : Parser} {rest : List Byte} : p.rest = ch '^' :: rest →
      Leaf p (.anchor .bol) { p with rest }
  | eol {p : Parser} {rest : List Byte} : p.rest = ch '$' :: rest →
      Leaf p (.anchor .eol) { p with rest }
  | charClass {p : Parser} {text rest : List Byte} {negated : Bool} {ranges : List Range} :
      p.rest = ch '[' :: text → Class text negated ranges rest →
      Leaf p (.charClass ranges negated p.flags.icase) { p with rest }
  | shorthand {p : Parser} {e : Byte} {rest : List Byte} {ranges : List Range} :
      p.rest = ch '\\' :: e :: rest → addShorthand e = some ranges →
      Leaf p (.charClass ranges false p.flags.icase) { p with rest }
  /-- The capital of a shorthand stands for the complement. -/
  | complement {p : Parser} {e : Byte} {rest : List Byte} {ranges : List Range} :
      p.rest = ch '\\' :: e :: rest → addShorthand (e + (ch 'a' - ch 'A')) = some ranges →
      e ∈ [ch 'D', ch 'W', ch 'S'] →
      Leaf p (.charClass ranges true p.flags.icase) { p with rest }
  | word {p : Parser} {rest : List Byte} : p.rest = ch '\\' :: ch 'b' :: rest →
      Leaf p (.anchor .word) { p with rest }
  | nonWord {p : Parser} {rest : List Byte} : p.rest = ch '\\' :: ch 'B' :: rest →
      Leaf p (.anchor .nonWord) { p with rest }
  | escaped {p : Parser} {e : Byte} {rest : List Byte} : p.rest = ch '\\' :: e :: rest →
      e ∈ metachars → Leaf p (.literal [e] p.flags.icase) { p with rest }
  | literal {p : Parser} {c : Byte} {rest : List Byte} : p.rest = c :: rest → c ∉ special →
      Leaf p (.literal (p.rest.take (literalLen c p.rest)) p.flags.icase)
        { p with rest := p.rest.drop (literalLen c p.rest) }

/-! ### The grammar -/

/-- `branches` and `parts` are the `*` of `concat ('|' concat)*` and of `repeat*`. -/
inductive Kind where
  | regex
  | branches
  | concat
  | parts
  | repeated
  | atom
deriving DecidableEq

/-- Flags, one after the other. -/
def addFlags (f : Flags) : List Byte → Option Flags
  | [] => some f
  | c :: rest => (setFlag f c).bind (addFlags · rest)

inductive Derives : Kind → Parser → List Ast → Parser → Prop
  | regex {p q r : Parser} {first : Ast} {branches : List Ast} : Derives .concat p [first] q →
      Derives .branches q branches r → Derives .regex p [altOf first branches] r
  | noBranch {p : Parser} : Derives .branches p [] p
  | branch {p q r : Parser} {rest : List Byte} {first : Ast} {branches : List Ast} :
      p.rest = ch '|' :: rest → Derives .concat { p with rest } [first] q →
      Derives .branches q branches r → Derives .branches p (first :: branches) r
  | concat {p q : Parser} {parts : List Ast} : Derives .parts p parts q →
      Derives .concat p [concatOf parts] q
  | noPart {p : Parser} : Derives .parts p [] p
  | part {p q r : Parser} {first : Ast} {parts : List Ast} : Derives .repeated p [first] q →
      Derives .parts q parts r → Derives .parts p (first :: parts) r
  | bare {p q : Parser} {atom : Ast} : Derives .atom p [atom] q → Bare q.rest →
      Derives .repeated p [atom] q
  | quantified {p q : Parser} {atom : Ast} {min : Nat} {max : Option Nat} {greedy : Bool}
      {rest : List Byte} : Derives .atom p [atom] q → Quantifier q.rest min max greedy rest →
      Derives .repeated p [.repeated atom min max greedy] { q with rest }
  | leaf {p q : Parser} {atom : Ast} : Leaf p atom q → Derives .atom p [atom] q
  | group {p q : Parser} {text rest : List Byte} {inner : Ast} : p.rest = ch '(' :: text →
      text.head? ≠ some (ch '?') →
      Derives .regex { p with rest := text, groupCount := p.groupCount + 1 } [inner] q →
      q.rest = ch ')' :: rest → Derives .atom p [.group inner p.groupCount] { q with rest }
  /-- Flags for a group without a number. -/
  | flagged {p q : Parser} {set text rest : List Byte} {flags : Flags} {inner : Ast} :
      p.rest = ch '(' :: ch '?' :: (set ++ ch ':' :: text) → addFlags p.flags set = some flags →
      Derives .regex { p with rest := text, flags } [inner] q → q.rest = ch ')' :: rest →
      Derives .atom p [inner] { q with rest, flags := p.flags }
  /-- Flags for what follows. -/
  | setFlags {p : Parser} {set rest : List Byte} {flags : Flags} :
      p.rest = ch '(' :: ch '?' :: (set ++ ch ')' :: rest) → set ≠ [] →
      addFlags p.flags set = some flags → Derives .atom p [.concat []] { p with rest, flags }

/-- The pattern is a regular expression. -/
def Sentence (pattern : List Byte) (ast : Ast) : Prop :=
  ∃ q, Derives .regex (start pattern) [ast] q ∧ q.rest = []

/-- A regular expression, and then a quantifier that has nothing to repeat. -/
def CutShort (pattern : List Byte) : Prop :=
  ∃ ast q c rest, Derives .regex (start pattern) [ast] q ∧ q.rest = c :: rest ∧
    (c = ch '*' ∨ c = ch '+' ∨ c = ch '?')

/-! ### The parser on classes -/

open Readers (bind_eq_ok)

theorem goesOn_cons {d x : Byte} {rest : List Byte} :
    GoesOn (d :: x :: rest) ↔ d = ch '-' ∧ x ≠ ch ']' := by
  constructor
  · rintro ⟨x', rest', heq, hx⟩
    cases heq
    exact ⟨rfl, hx⟩
  · rintro ⟨rfl, hx⟩
    exact ⟨x, rest, rfl, hx⟩

theorem parseClassRange_cons (c d x : Byte) (rest : List Byte) :
    parseClassRange c (d :: x :: rest) =
      if d = ch '-' ∧ x ≠ ch ']' then
        if x = ch '\\' then parseEscapedEnd c rest else .ok ([⟨c, x⟩], rest)
      else .ok ([⟨c, c⟩], d :: x :: rest) := rfl

theorem parseClassRange_sound {text rest rest' : List Byte} {c : Byte} {ranges : List Range}
    (hc : ClassChar text c rest) (h : parseClassRange c rest = .ok (ranges, rest')) :
    ClassItem text ranges rest' := by
  rcases rest with _ | ⟨d, _ | ⟨x, rest⟩⟩
  · cases h
    exact .single hc (by rintro ⟨x, r, heq, -⟩; cases heq)
  · cases h
    exact .single hc (by rintro ⟨x, r, heq, -⟩; cases heq)
  · rw [parseClassRange_cons] at h
    by_cases hon : d = ch '-' ∧ x ≠ ch ']'
    · rw [if_pos hon] at h
      obtain ⟨rfl, hx⟩ := hon
      by_cases hb : x = ch '\\'
      · rw [if_pos hb] at h
        subst hb
        cases rest with
        | nil => cases h
        | cons hi rest =>
          cases h
          exact .range hc .escaped
      · rw [if_neg hb] at h
        cases h
        exact .range hc (.plain hx hb)
    · rw [if_neg hon] at h
      cases h
      exact .single hc (fun hg => hon (goesOn_cons.mp hg))

theorem parseClassItem_sound {text rest : List Byte} {ranges : List Range}
    (h : parseClassItem text = .ok (ranges, rest)) : ClassItem text ranges rest := by
  cases text with
  | nil => cases h
  | cons c text =>
    rw [parseClassItem] at h
    by_cases hb : c = ch '\\'
    · rw [if_pos hb] at h
      subst hb
      cases text with
      | nil => cases h
      | cons e text =>
        rw [parseClassEscape] at h
        cases hs : classShorthand e with
        | some rs =>
          rw [hs] at h
          cases h
          exact .shorthand hs
        | none =>
          rw [hs] at h
          exact parseClassRange_sound (.escaped hs) h
    · rw [if_neg hb] at h
      exact parseClassRange_sound (.plain hb) h

theorem parseClassRange_range {lo hi : Byte} {rest rest' : List Byte} (h : RangeEnd rest hi rest') :
    parseClassRange lo (ch '-' :: rest) = .ok ([⟨lo, hi⟩], rest') := by
  cases h with
  | plain hx hb => rw [parseClassRange_cons, if_pos ⟨rfl, hx⟩, if_neg hb]
  | escaped => rw [parseClassRange_cons, if_pos ⟨rfl, by decide⟩, if_pos rfl, parseEscapedEnd]

theorem parseClassRange_single {c : Byte} {rest : List Byte} (h : ¬ GoesOn rest) :
    parseClassRange c rest = .ok ([⟨c, c⟩], rest) := by
  rcases rest with _ | ⟨d, _ | ⟨x, rest⟩⟩
  · rfl
  · rfl
  · rw [parseClassRange_cons, if_neg (fun hon => h (goesOn_cons.mpr hon))]

theorem parseClassItem_char {text rest : List Byte} {c : Byte} (h : ClassChar text c rest) :
    parseClassItem text = parseClassRange c rest := by
  cases h with
  | plain hb => rw [parseClassItem, if_neg hb]
  | escaped hs => rw [parseClassItem, if_pos rfl, parseClassEscape, hs]

theorem parseClassItem_iff {text rest : List Byte} {ranges : List Range} :
    parseClassItem text = .ok (ranges, rest) ↔ ClassItem text ranges rest := by
  refine ⟨parseClassItem_sound, fun h => ?_⟩
  cases h with
  | shorthand hs => rw [parseClassItem, if_pos rfl, parseClassEscape, hs]
  | range hc hr => rw [parseClassItem_char hc, parseClassRange_range hr]
  | single hc hn => rw [parseClassItem_char hc, parseClassRange_single hn]

theorem ClassChar.length {text rest : List Byte} {c : Byte} (h : ClassChar text c rest) :
    rest.length < text.length := by
  cases h with
  | plain => exact Nat.lt_succ_self _
  | escaped => exact Nat.lt_succ_of_le (Nat.le_succ _)

theorem RangeEnd.length {text rest : List Byte} {c : Byte} (h : RangeEnd text c rest) :
    rest.length < text.length := by
  cases h with
  | plain => exact Nat.lt_succ_self _
  | escaped => exact Nat.lt_succ_of_le (Nat.le_succ _)

theorem ClassItem.length {text rest : List Byte} {ranges : List Range}
    (h : ClassItem text ranges rest) : rest.length < text.length := by
  cases h with
  | shorthand => exact Nat.lt_succ_of_le (Nat.le_succ _)
  | range hc hr =>
    have h1 := hc.length
    have h2 := hr.length
    rw [List.length_cons] at h1
    omega
  | single hc => exact hc.length

theorem ClassItems.length {first : Bool} {text rest : List Byte} {ranges : List Range}
    (h : ClassItems first text ranges rest) : rest.length < text.length := by
  induction h with
  | close => exact Nat.lt_succ_self _
  | item _ hi _ ih => exact Nat.lt_trans ih hi.length

theorem parseClassItems_iff {n : Nat} {first : Bool} {text rest : List Byte} {ranges : List Range}
    (hn : text.length ≤ n) :
    parseClassItems n first text = .ok (ranges, rest) ↔ ClassItems first text ranges rest := by
  constructor
  · intro h
    induction n generalizing first text ranges with
    | zero => simp [parseClassItems, fail] at h
    | succ n ih =>
      cases text with
      | nil => simp [parseClassItems, fail] at h
      | cons c text =>
        rw [parseClassItems] at h
        by_cases hclose : c = ch ']' ∧ first = false
        · rw [if_pos hclose] at h
          obtain ⟨rfl, rfl⟩ := hclose
          cases h
          exact .close
        · rw [if_neg hclose] at h
          obtain ⟨⟨rs, rest1⟩, hitem, h⟩ := bind_eq_ok.mp h
          obtain ⟨⟨more, rest2⟩, hmore, h⟩ := bind_eq_ok.mp h
          cases h
          have hi := parseClassItem_iff.mp hitem
          have hlen := hi.length
          refine .item (fun heq => ?_) hi (ih (by rw [List.length_cons] at hlen hn; omega) hmore)
          have heq : c = ch ']' := Option.some.inj heq
          cases first with
          | true => rfl
          | false => exact absurd ⟨heq, rfl⟩ hclose
  · intro h
    induction h generalizing n with
    | close =>
      obtain ⟨n, rfl⟩ := Nat.exists_eq_succ_of_ne_zero (n := n) (by rintro rfl; simp at hn)
      rw [parseClassItems, if_pos ⟨rfl, rfl⟩]
    | @item first text rest rest' ranges more hfirst hi _ ih =>
      have hlen := hi.length
      cases text with
      | nil => exact absurd hlen (Nat.not_lt_zero _)
      | cons c text =>
        rw [List.length_cons] at hn hlen
        obtain ⟨n, rfl⟩ := Nat.exists_eq_succ_of_ne_zero (n := n) (by omega)
        rw [parseClassItems, if_neg, parseClassItem_iff.mpr hi]
        · simp only [bind, Except.bind]
          rw [ih (by omega)]
          rfl
        · rintro ⟨rfl, rfl⟩
          cases hfirst rfl

theorem parseCharClass_iff {p q : Parser} {a : Ast} :
    parseCharClass p = .ok (a, q) ↔ ∃ negated ranges rest, Class p.rest negated ranges rest ∧
      a = .charClass ranges negated p.flags.icase ∧ q = { p with rest } := by
  rw [parseCharClass]
  constructor
  · intro h
    obtain ⟨⟨ranges, rest⟩, hitems, h⟩ := bind_eq_ok.mp h
    cases h
    refine ⟨_, ranges, rest, ?_, rfl, rfl⟩
    have hitems := (parseClassItems_iff (Nat.le_refl _)).mp hitems
    rcases hp : p.rest with _ | ⟨c, text⟩
    · rw [hp] at hitems
      exact .plain nofun hitems
    · rw [hp] at hitems
      simp only at hitems ⊢
      by_cases hc : c = ch '^'
      · rw [if_pos hc] at hitems ⊢
        subst hc
        exact .negated hitems
      · rw [if_neg hc] at hitems ⊢
        exact .plain (fun heq => hc (Option.some.inj heq)) hitems
  · rintro ⟨negated, ranges, rest, hclass, rfl, rfl⟩
    generalize hp : p.rest = text at hclass
    cases hclass with
    | negated hitems =>
      simp only [if_pos]
      rw [(parseClassItems_iff (Nat.le_refl _)).mpr hitems]
      rfl
    | plain hhead hitems =>
      cases text with
      | nil =>
        simp only
        rw [(parseClassItems_iff (Nat.le_refl _)).mpr hitems]
        rfl
      | cons c text =>
        have hc : c ≠ ch '^' := fun heq => hhead (by rw [heq]; rfl)
        simp only [if_neg hc]
        rw [(parseClassItems_iff (Nat.le_refl _)).mpr hitems]
        rfl

/-! ### The parser on quantifiers -/

theorem le_foldl_digits (n : Nat) (ds : List Byte) :
    n ≤ ds.foldl (fun n c => n * 10 + digit c) n := by
  induction ds generalizing n with
  | nil => exact Nat.le_refl n
  | cons d ds ih =>
    have := ih (n * 10 + digit d)
    rw [List.foldl_cons]
    omega

/-- All the digits are read, unless the number comes to more than the greatest count. -/
theorem parseNumber_iff {n m : Nat} {text rest : List Byte} (hn : n ≤ repeatMax) :
    parseNumber n text = some (m, rest) ↔ ∃ ds, text = ds ++ rest ∧ (∀ c ∈ ds, isDigit c = true) ∧
      (∀ c ∈ rest.head?, isDigit c = false) ∧ ds.foldl (fun n c => n * 10 + digit c) n = m ∧
      m ≤ repeatMax := by
  induction text generalizing n with
  | nil =>
    rw [parseNumber]
    constructor
    · intro h
      cases h
      exact ⟨[], rfl, nofun, nofun, rfl, hn⟩
    · rintro ⟨ds, heq, -, -, hval, -⟩
      obtain ⟨rfl, rfl⟩ := List.append_eq_nil_iff.mp heq.symm
      rw [← hval]
      rfl
  | cons c text ih =>
    rw [parseNumber]
    by_cases hc : isDigit c = true
    · rw [if_pos hc]
      by_cases hbig : repeatMax < n * 10 + digit c
      · rw [if_pos hbig]
        refine iff_of_false nofun ?_
        rintro ⟨ds, heq, hds, hhead, hval, hm⟩
        rcases ds with _ | ⟨d, ds⟩
        · rw [List.nil_append] at heq
          subst heq
          have := hhead c rfl
          rw [hc] at this
          cases this
        · obtain ⟨rfl, -⟩ := List.cons.inj heq
          have := le_foldl_digits (n * 10 + digit c) ds
          rw [List.foldl_cons] at hval
          omega
      · rw [if_neg hbig, ih (Nat.not_lt.mp hbig)]
        constructor
        · rintro ⟨ds, rfl, hds, hhead, hval, hm⟩
          refine ⟨c :: ds, rfl, ?_, hhead, hval, hm⟩
          exact List.forall_mem_cons.mpr ⟨hc, hds⟩
        · rintro ⟨ds, heq, hds, hhead, hval, hm⟩
          rcases ds with _ | ⟨d, ds⟩
          · rw [List.nil_append] at heq
            subst heq
            have := hhead c rfl
            rw [hc] at this
            cases this
          · obtain ⟨rfl, rfl⟩ := List.cons.inj heq
            exact ⟨ds, rfl, (List.forall_mem_cons.mp hds).2, hhead, hval, hm⟩
    · rw [if_neg hc]
      constructor
      · intro h
        cases h
        refine ⟨[], rfl, nofun, ?_, rfl, hn⟩
        rintro d ⟨⟩
        exact Bool.eq_false_iff.mpr hc
      · rintro ⟨ds, heq, hds, hhead, hval, hm⟩
        rcases ds with _ | ⟨d, ds⟩
        · rw [List.nil_append] at heq
          subst heq
          rw [← hval]
          rfl
        · obtain ⟨rfl, -⟩ := List.cons.inj heq
          exact absurd (hds c List.mem_cons_self) hc

theorem parseDigits_iff {m : Nat} {text rest : List Byte} :
    parseDigits text = some (m, rest) ↔ ∃ ds, text = ds ++ rest ∧ Number ds m ∧
      ∀ c ∈ rest.head?, isDigit c = false := by
  cases text with
  | nil =>
    refine iff_of_false nofun ?_
    rintro ⟨ds, heq, hds, -⟩
    exact hds.ne_nil (List.append_eq_nil_iff.mp heq.symm).1
  | cons c text =>
    rw [parseDigits]
    by_cases hc : isDigit c = true
    · rw [if_pos hc, parseNumber_iff (Nat.zero_le _)]
      constructor
      · rintro ⟨ds, heq, hds, hhead, hval, hm⟩
        refine ⟨ds, heq, ⟨?_, hds, hval, hm⟩, hhead⟩
        rintro rfl
        rw [List.nil_append] at heq
        subst heq
        have := hhead c rfl
        rw [hc] at this
        cases this
      · rintro ⟨ds, heq, hds, hhead⟩
        exact ⟨ds, heq, hds.digit, hhead, hds.value, hds.le⟩
    · rw [if_neg hc]
      refine iff_of_false nofun ?_
      rintro ⟨ds, heq, hds, -⟩
      rcases ds with _ | ⟨d, ds⟩
      · exact hds.ne_nil rfl
      · obtain ⟨rfl, -⟩ := List.cons.inj heq
        exact hc (hds.digit c List.mem_cons_self)

theorem parseDigits_append {m : Nat} {ds : List Byte} {c : Byte} (hds : Number ds m)
    (hc : isDigit c = false) (rest : List Byte) : parseDigits (ds ++ c :: rest) = some (m, c :: rest) := by
  refine parseDigits_iff.mpr ⟨ds, rfl, hds, ?_⟩
  rintro d ⟨⟩
  exact hc

theorem parseCount_iff {text rest : List Byte} {n : Nat} {max : Option Nat} :
    parseCount text = some (n, max, rest) ↔ Count text n max rest := by
  constructor
  · intro h
    rw [parseCount] at h
    rcases hd : parseDigits text with _ | ⟨k, _ | ⟨c, text1⟩⟩
    · simp only [hd, reduceCtorEq] at h
    · simp only [hd, reduceCtorEq] at h
    · obtain ⟨ds, rfl, hds, -⟩ := parseDigits_iff.mp hd
      simp only [hd] at h
      by_cases hc : c = ch '}'
      · rw [if_pos hc] at h
        cases h
        subst hc
        exact .exactly hds
      · rw [if_neg hc] at h
        by_cases hcomma : c = ch ','
        · rw [if_pos hcomma] at h
          subst hcomma
          rcases text1 with _ | ⟨d, text2⟩
          · cases h
          · simp only at h
            by_cases hclose : d = ch '}'
            · rw [if_pos hclose] at h
              cases h
              subst hclose
              exact .atLeast hds
            · rw [if_neg hclose] at h
              rcases hd' : parseDigits (d :: text2) with _ | ⟨m, _ | ⟨e, text3⟩⟩
              · simp only [hd', reduceCtorEq] at h
              · simp only [hd', reduceCtorEq] at h
              · obtain ⟨es, heq, hes, -⟩ := parseDigits_iff.mp hd'
                simp only [hd'] at h
                by_cases he : e = ch '}'
                · rw [if_pos he] at h
                  cases h
                  subst he
                  rw [heq]
                  exact .between hds hes
                · rw [if_neg he] at h
                  cases h
        · rw [if_neg hcomma] at h
          cases h
  · intro h
    cases h with
    | exactly hds =>
      simp only [parseCount, parseDigits_append hds (show isDigit (ch '}') = false by decide), if_pos]
    | atLeast hds =>
      simp only [parseCount, parseDigits_append hds (show isDigit (ch ',') = false by decide), if_pos]
      rw [if_neg (by decide)]
    | @between ds es rest n m hds hes =>
      have hlast := parseDigits_append hes (show isDigit (ch '}') = false by decide) rest
      have hne : ∃ e es', es = e :: es' ∧ e ≠ ch '}' := by
        obtain ⟨e, es', rfl⟩ := List.exists_cons_of_ne_nil hes.ne_nil
        refine ⟨e, es', rfl, ?_⟩
        rintro rfl
        exact absurd (hes.digit _ List.mem_cons_self) (by decide)
      obtain ⟨e, es', rfl, he⟩ := hne
      simp only [parseCount, parseDigits_append hds (show isDigit (ch ',') = false by decide)]
      rw [if_neg (by decide), if_pos trivial]
      simp only [List.cons_append] at hlast ⊢
      rw [if_neg he, hlast]
      simp only [if_pos]

theorem parseLazy_iff {text rest : List Byte} {greedy : Bool} :
    parseLazy text = (greedy, rest) ↔ Laziness text greedy rest := by
  constructor
  · intro h
    rcases text with _ | ⟨c, text⟩
    · cases h
      exact .greedy nofun
    · rw [parseLazy] at h
      by_cases hc : c = ch '?'
      · rw [if_pos hc] at h
        cases h
        subst hc
        exact .lazy
      · rw [if_neg hc] at h
        cases h
        exact .greedy (fun heq => hc (Option.some.inj heq))
  · intro h
    cases h with
    | lazy => rw [parseLazy, if_pos rfl]
    | greedy hhead =>
      cases text with
      | nil => rfl
      | cons c text =>
        rw [parseLazy, if_neg]
        rintro rfl
        exact hhead rfl

/-- What stands for an atom with what follows it. -/
inductive Repeats (atom : Ast) (p : Parser) : Ast → Parser → Prop
  | bare : Bare p.rest → Repeats atom p atom p
  | quantified {min : Nat} {max : Option Nat} {greedy : Bool} {rest : List Byte} :
      Quantifier p.rest min max greedy rest →
      Repeats atom p (.repeated atom min max greedy) { p with rest }

theorem bare_of_simple {c : Byte} {rest : List Byte} (hs : simpleQuantifier c = none)
    (hc : c = ch '{' → parseCount rest = none) : Bare (c :: rest) := by
  refine ⟨?_, ?_⟩
  · rintro d ⟨⟩
    exact hs
  · rintro rest' heq n m rest'' hcount
    obtain ⟨rfl, rfl⟩ := List.cons.inj heq
    rw [← parseCount_iff, hc rfl] at hcount
    cases hcount

theorem parseQuantifier_iff {atom a : Ast} {p q : Parser} :
    parseQuantifier atom p = .ok (a, q) ↔ Repeats atom p a q := by
  constructor
  · intro h
    rw [parseQuantifier] at h
    rcases hp : p.rest with _ | ⟨c, text⟩
    · simp only [hp] at h
      cases h
      exact .bare (by rw [hp]; exact ⟨nofun, nofun⟩)
    · simp only [hp] at h
      rcases hs : simpleQuantifier c with _ | ⟨min, max⟩
      · simp only [hs] at h
        by_cases hc : c = ch '{'
        · rw [if_pos hc] at h
          subst hc
          rcases hcount : parseCount text with _ | ⟨min, max, text'⟩
          · simp only [hcount] at h
            cases h
            exact .bare (by rw [hp]; exact bare_of_simple hs fun _ => hcount)
          · simp only [hcount] at h
            by_cases hle : max.any (· < min) = true
            · rw [if_pos hle] at h
              cases h
            · rw [if_neg hle] at h
              cases h
              refine .quantified ?_
              rw [hp]
              refine .counted (parseCount_iff.mp hcount) (fun m hm => ?_) (parseLazy_iff.mp rfl)
              rw [hm, Option.any_some, decide_eq_true_eq] at hle
              exact Nat.not_lt.mp hle
        · rw [if_neg hc] at h
          cases h
          exact .bare (by rw [hp]; exact bare_of_simple hs fun heq => absurd heq hc)
      · simp only [hs] at h
        cases h
        refine .quantified ?_
        rw [hp]
        exact .simple hs (parseLazy_iff.mp rfl)
  · intro h
    rw [parseQuantifier]
    cases h with
    | bare hb =>
      rcases hp : p.rest with _ | ⟨c, text⟩
      · rfl
      · rw [hp] at hb
        simp only [hb.simple c rfl]
        by_cases hc : c = ch '{'
        · rw [if_pos hc]
          subst hc
          rcases hcount : parseCount text with _ | ⟨min, max, text'⟩
          · rfl
          · exact absurd (parseCount_iff.mp hcount) (hb.counted text rfl _ _ _)
        · rw [if_neg hc]
    | @quantified min max greedy rest hq =>
      generalize hp : p.rest = text at hq
      cases hq with
      | simple hs hl => simp only [hs, parseLazy_iff.mpr hl]
      | counted hcount hle hl =>
        have hs : simpleQuantifier (ch '{') = none := by decide
        have hany : ¬ max.any (· < min) = true := by
          cases max with
          | none => exact nofun
          | some m =>
            rw [Option.any_some, decide_eq_true_eq]
            exact Nat.not_lt.mpr (hle m rfl)
        simp only [hs, if_pos, parseCount_iff.mpr hcount, parseLazy_iff.mpr hl]
        rw [if_neg hany]

/-! ### The parser on leaves -/

theorem utf8Len_pos (b : Byte) : 0 < utf8Len b := by
  rw [utf8Len]
  split
  · exact Nat.one_pos
  split
  · exact Nat.succ_pos _
  split
  · exact Nat.succ_pos _
  split
  · exact Nat.succ_pos _
  · exact Nat.one_pos

theorem literalLen_pos (c : Byte) (text : List Byte) : 0 < literalLen c text := by
  rw [literalLen]
  split
  · exact Nat.one_pos
  · exact utf8Len_pos c

theorem Leaf.length {p q : Parser} {a : Ast} (h : Leaf p a q) :
    q.rest.length < p.rest.length := by
  cases h with
  | dot hp => rw [hp]; exact Nat.lt_succ_self _
  | bol hp => rw [hp]; exact Nat.lt_succ_self _
  | eol hp => rw [hp]; exact Nat.lt_succ_self _
  | charClass hp hc =>
    rw [hp]
    cases hc with
    | negated hi => exact Nat.lt_succ_of_lt (Nat.lt_succ_of_lt hi.length)
    | plain _ hi => exact Nat.lt_succ_of_lt hi.length
  | shorthand hp => rw [hp]; exact Nat.lt_succ_of_le (Nat.le_succ _)
  | complement hp => rw [hp]; exact Nat.lt_succ_of_le (Nat.le_succ _)
  | word hp => rw [hp]; exact Nat.lt_succ_of_le (Nat.le_succ _)
  | nonWord hp => rw [hp]; exact Nat.lt_succ_of_le (Nat.le_succ _)
  | escaped hp => rw [hp]; exact Nat.lt_succ_of_le (Nat.le_succ _)
  | @literal c rest hp =>
    have hpos := literalLen_pos c p.rest
    have hlen := congrArg List.length hp
    rw [List.length_cons] at hlen
    change (p.rest.drop _).length < _
    rw [List.length_drop]
    omega

theorem addShorthand_eq_some {e : Byte} {ranges : List Range} (h : addShorthand e = some ranges) :
    e = ch 'd' ∨ e = ch 'w' ∨ e = ch 's' := by
  rw [addShorthand] at h
  by_contra hne
  rw [if_neg (by tauto), if_neg (by tauto), if_neg (by tauto)] at h
  cases h

theorem parseEscape_sound {p q : Parser} {a : Ast} {text : List Byte}
    (hp : p.rest = ch '\\' :: text) (h : parseEscape p text = .ok (a, q)) : Leaf p a q := by
  rcases text with _ | ⟨e, rest⟩
  · cases h
  · rw [parseEscape] at h
    by_cases h1 : e = ch 'd' ∨ e = ch 'w' ∨ e = ch 's'
    · rw [if_pos h1] at h
      cases h
      refine .shorthand hp ?_
      obtain rfl | rfl | rfl := h1 <;> rfl
    rw [if_neg h1] at h
    by_cases h2 : e = ch 'D' ∨ e = ch 'W' ∨ e = ch 'S'
    · rw [if_pos h2] at h
      cases h
      refine .complement hp ?_ ?_
      · obtain rfl | rfl | rfl := h2 <;> rfl
      · obtain rfl | rfl | rfl := h2 <;> simp
    rw [if_neg h2] at h
    by_cases h3 : e = ch 'b'
    · rw [if_pos h3] at h
      cases h
      exact .word (by rw [hp, h3])
    rw [if_neg h3] at h
    by_cases h4 : e = ch 'B'
    · rw [if_pos h4] at h
      cases h
      exact .nonWord (by rw [hp, h4])
    rw [if_neg h4] at h
    by_cases h5 : e ∈ metachars
    · rw [if_pos h5] at h
      cases h
      exact .escaped hp h5
    · rw [if_neg h5] at h
      cases h

/-- The bytes at which the parser does not look for a leaf. -/
def IsLeafByte (c : Byte) : Prop :=
  c ≠ ch '(' ∧ ¬ (c = ch ')' ∨ c = ch '|' ∨ c = ch '*' ∨ c = ch '+' ∨ c = ch '?')

theorem parseLeaf_sound {p q : Parser} {a : Ast} {c : Byte} {rest : List Byte}
    (hp : p.rest = c :: rest) (hc : IsLeafByte c) (h : parseLeaf p c rest = .ok (a, q)) :
    Leaf p a q := by
  rw [parseLeaf] at h
  by_cases h1 : c = ch '.'
  · rw [if_pos h1] at h
    cases h
    exact .dot (by rw [hp, h1])
  rw [if_neg h1] at h
  by_cases h2 : c = ch '^'
  · rw [if_pos h2] at h
    cases h
    exact .bol (by rw [hp, h2])
  rw [if_neg h2] at h
  by_cases h3 : c = ch '$'
  · rw [if_pos h3] at h
    cases h
    exact .eol (by rw [hp, h3])
  rw [if_neg h3] at h
  by_cases h4 : c = ch '['
  · rw [if_pos h4] at h
    obtain ⟨negated, ranges, rest', hclass, rfl, rfl⟩ := parseCharClass_iff.mp h
    exact .charClass (by rw [hp, h4]) hclass
  rw [if_neg h4] at h
  by_cases h5 : c = ch '\\'
  · rw [if_pos h5] at h
    exact parseEscape_sound (by rw [hp, h5]) h
  rw [if_neg h5] at h
  cases h
  refine .literal hp ?_
  obtain ⟨h6, h7⟩ := hc
  simp only [special, List.mem_cons, List.not_mem_nil, or_false]
  tauto

theorem parseLeaf_complete {p q : Parser} {a : Ast} (h : Leaf p a q) :
    ∃ c rest, p.rest = c :: rest ∧ IsLeafByte c ∧ parseLeaf p c rest = .ok (a, q) := by
  cases h with
  | dot hp => exact ⟨_, _, hp, by unfold IsLeafByte; decide, rfl⟩
  | bol hp => exact ⟨_, _, hp, by unfold IsLeafByte; decide, rfl⟩
  | eol hp => exact ⟨_, _, hp, by unfold IsLeafByte; decide, rfl⟩
  | @charClass text rest negated ranges hp hc =>
    refine ⟨_, _, hp, by unfold IsLeafByte; decide, ?_⟩
    change parseCharClass { p with rest := text } = _
    exact parseCharClass_iff.mpr ⟨negated, ranges, rest, hc, rfl, rfl⟩
  | @shorthand e rest ranges hp hs =>
    refine ⟨_, _, hp, by unfold IsLeafByte; decide, ?_⟩
    change parseEscape p (e :: rest) = _
    rw [parseEscape, if_pos (addShorthand_eq_some hs), hs]
    rfl
  | @complement e rest ranges hp hs he =>
    refine ⟨_, _, hp, by unfold IsLeafByte; decide, ?_⟩
    change parseEscape p (e :: rest) = _
    have hD : e = ch 'D' ∨ e = ch 'W' ∨ e = ch 'S' := by simpa using he
    have hd : ¬ (e = ch 'd' ∨ e = ch 'w' ∨ e = ch 's') := by
      obtain rfl | rfl | rfl := hD <;> decide
    rw [parseEscape, if_neg hd, if_pos hD, hs]
    rfl
  | word hp => exact ⟨_, _, hp, by unfold IsLeafByte; decide, rfl⟩
  | nonWord hp => exact ⟨_, _, hp, by unfold IsLeafByte; decide, rfl⟩
  | @escaped e rest hp he =>
    refine ⟨_, _, hp, by unfold IsLeafByte; decide, ?_⟩
    change parseEscape p (e :: rest) = _
    have hne : ∀ e ∈ metachars, ¬ (e = ch 'd' ∨ e = ch 'w' ∨ e = ch 's') ∧
        ¬ (e = ch 'D' ∨ e = ch 'W' ∨ e = ch 'S') ∧ e ≠ ch 'b' ∧ e ≠ ch 'B' := by decide +kernel
    obtain ⟨h1, h2, h3, h4⟩ := hne e he
    rw [parseEscape, if_neg h1, if_neg h2, if_neg h3, if_neg h4, if_pos he]
  | @literal c rest hp hc =>
    simp only [special, List.mem_cons, List.not_mem_nil, or_false, not_or] at hc
    obtain ⟨h1, h2, h3, h4, h5, h6, h7, h8, h9, h10, h11⟩ := hc
    refine ⟨c, rest, hp, ⟨h1, by tauto⟩, ?_⟩
    rw [parseLeaf, if_neg h7, if_neg h8, if_neg h9, if_neg h10, if_neg h11]
    rfl

end Jacl.Regex
