import Jacl.RegexLeftmost

/-!
# Character classes are sets

A class as it is written has members, each of which is a set of bytes.  The instruction that a
class compiles to admits the bytes of the union, or the others if the class is negated.
-/

namespace Jacl.Regex

/-! ### Members -/

/-- A member of a class: a byte, a range, or a shorthand by its letter. -/
inductive Member where
  | byte (b : Byte)
  | range (lo hi : Byte)
  | shorthand (letter : Byte)

/-- Whitespace. -/
def isSpace (b : Byte) : Bool := b == 32 || (9 ≤ b && b ≤ 13)

/-- A small letter stands for a set, and its capital for what is not in it. -/
def ShorthandHas (letter : Byte) (b : Byte) : Prop :=
  letter = ch 'd' ∧ isDigit b = true ∨ letter = ch 'w' ∧ isWordChar b = true ∨
  letter = ch 's' ∧ isSpace b = true ∨ letter = ch 'D' ∧ isDigit b = false ∨
  letter = ch 'W' ∧ isWordChar b = false ∨ letter = ch 'S' ∧ isSpace b = false

def Member.Has : Member → Byte → Prop
  | .byte c, b => b = c
  | .range lo hi, b => lo ≤ b ∧ b ≤ hi
  | .shorthand letter, b => ShorthandHas letter b

/-- What is in a class before it is negated. -/
def MembersHave (members : List Member) (icase : Bool) (b : Byte) : Prop :=
  ∃ m ∈ members, m.Has b ∨ icase = true ∧ isAlpha b = true ∧ m.Has (swapCase b)

inductive MemberText : List Byte → Member → List Byte → Prop
  | shorthand {e : Byte} {rest : List Byte} :
      e ∈ [ch 'd', ch 'w', ch 's', ch 'D', ch 'W', ch 'S'] →
      MemberText (ch '\\' :: e :: rest) (.shorthand e) rest
  | range {lo hi : Byte} {text rest rest' : List Byte} : ClassChar text lo (ch '-' :: rest) →
      RangeEnd rest hi rest' → MemberText text (.range lo hi) rest'
  | byte {c : Byte} {text rest : List Byte} : ClassChar text c rest → ¬ GoesOn rest →
      MemberText text (.byte c) rest

/-- The members up to the `]`, which is a member in the `first` place. -/
inductive MembersText : Bool → List Byte → List Member → List Byte → Prop
  | close {rest : List Byte} : MembersText false (ch ']' :: rest) [] rest
  | member {first : Bool} {text rest rest' : List Byte} {m : Member} {members : List Member} :
      (text.head? = some (ch ']') → first = true) → MemberText text m rest →
      MembersText false rest members rest' → MembersText first text (m :: members) rest'

/-- A class after its `[`. -/
inductive ClassText : List Byte → Bool → List Member → List Byte → Prop
  | negated {text rest : List Byte} {members : List Member} : MembersText true text members rest →
      ClassText (ch '^' :: text) true members rest
  | plain {text rest : List Byte} {members : List Member} : text.head? ≠ some (ch '^') →
      MembersText true text members rest → ClassText text false members rest

/-! ### The ranges of a member -/

def Member.ranges : Member → List Range
  | .byte b => [⟨b, b⟩]
  | .range lo hi => [⟨lo, hi⟩]
  | .shorthand letter => (classShorthand letter).getD []

theorem classShorthand_isSome {e : Byte} : (classShorthand e).isSome ↔
    e ∈ [ch 'd', ch 'w', ch 's', ch 'D', ch 'W', ch 'S'] := by
  simp only [classShorthand, addShorthand, addComplement, List.mem_cons, List.not_mem_nil, or_false]
  split_ifs <;> simp_all

theorem classItem_iff {text rest : List Byte} {ranges : List Range} :
    ClassItem text ranges rest ↔ ∃ m, MemberText text m rest ∧ ranges = m.ranges := by
  constructor
  · rintro (@⟨e, ranges, rest, h⟩ | ⟨h1, h2⟩ | ⟨h1, h2⟩)
    · refine ⟨.shorthand e, .shorthand (classShorthand_isSome.mp ?_), ?_⟩
      · rw [h]
        rfl
      · rw [Member.ranges, h]
        rfl
    · exact ⟨_, .range h1 h2, rfl⟩
    · exact ⟨_, .byte h1 h2, rfl⟩
  · rintro ⟨m, hm, rfl⟩
    cases hm with
    | shorthand he =>
      obtain ⟨ranges, hr⟩ := Option.isSome_iff_exists.mp (classShorthand_isSome.mpr he)
      rw [Member.ranges, hr]
      exact .shorthand hr
    | range h1 h2 => exact .range h1 h2
    | byte h1 h2 => exact .single h1 h2

theorem classItems_iff {first : Bool} {text rest : List Byte} {ranges : List Range} :
    ClassItems first text ranges rest ↔
      ∃ members, MembersText first text members rest ∧ ranges = members.flatMap Member.ranges := by
  constructor
  · intro h
    induction h with
    | close => exact ⟨[], .close, rfl⟩
    | item hfirst hitem _ ih =>
      obtain ⟨members, hmembers, rfl⟩ := ih
      obtain ⟨m, hm, rfl⟩ := classItem_iff.mp hitem
      exact ⟨m :: members, .member hfirst hm hmembers, rfl⟩
  · rintro ⟨members, h, rfl⟩
    induction h with
    | close => exact .close
    | member hfirst hm _ ih => exact .item hfirst (classItem_iff.mpr ⟨_, hm, rfl⟩) ih

theorem class_iff {text rest : List Byte} {negated : Bool} {ranges : List Range} :
    Class text negated ranges rest ↔
      ∃ members, ClassText text negated members rest ∧ ranges = members.flatMap Member.ranges := by
  constructor
  · rintro (h | ⟨hhead, h⟩)
    · obtain ⟨members, hm, rfl⟩ := classItems_iff.mp h
      exact ⟨members, .negated hm, rfl⟩
    · obtain ⟨members, hm, rfl⟩ := classItems_iff.mp h
      exact ⟨members, .plain hhead hm, rfl⟩
  · rintro ⟨members, h | ⟨hhead, h⟩, rfl⟩
    · exact .negated (classItems_iff.mpr ⟨members, h, rfl⟩)
    · exact .plain hhead (classItems_iff.mpr ⟨members, h, rfl⟩)

theorem forall_byte {P : Byte → Prop} (h : ∀ n < 256, P (UInt8.ofNat n)) (b : Byte) : P b := by
  have := h b.toNat b.toNat_lt
  rwa [UInt8.ofNat_toNat] at this

/-- The bytes of a shorthand, in and outside of its letter's set. -/
theorem digit_ranges (b : Byte) :
    ([⟨ch '0', ch '9'⟩] : List Range).any (·.admits b) = isDigit b ∧
      ([⟨0, ch '0' - 1⟩, ⟨ch '9' + 1, 255⟩] : List Range).any (·.admits b) =
        !isDigit b := by
  revert b
  exact forall_byte (by decide +kernel)

theorem word_ranges (b : Byte) :
    ([⟨ch 'a', ch 'z'⟩, ⟨ch 'A', ch 'Z'⟩, ⟨ch '0', ch '9'⟩, ⟨ch '_', ch '_'⟩] : List Range).any
        (·.admits b) = isWordChar b ∧
      ([⟨0, ch '0' - 1⟩, ⟨ch '9' + 1, ch 'A' - 1⟩, ⟨ch 'Z' + 1, ch '_' - 1⟩,
        ⟨ch '_' + 1, ch 'a' - 1⟩, ⟨ch 'z' + 1, 255⟩] : List Range).any (·.admits b) =
        !isWordChar b := by
  revert b
  exact forall_byte (by decide +kernel)

theorem space_ranges (b : Byte) :
    ([⟨32, 32⟩, ⟨9, 9⟩, ⟨10, 10⟩, ⟨13, 13⟩, ⟨12, 12⟩, ⟨11, 11⟩] : List Range).any
        (·.admits b) = isSpace b ∧
      ([⟨0, 8⟩, ⟨14, 31⟩, ⟨33, 255⟩] : List Range).any (·.admits b) =
        !isSpace b := by
  revert b
  exact forall_byte (by decide +kernel)

theorem shorthand_admits {e : Byte} (he : e ∈ [ch 'd', ch 'w', ch 's', ch 'D', ch 'W', ch 'S'])
    (b : Byte) : ((classShorthand e).getD []).any (·.admits b) = true ↔ ShorthandHas e b := by
  obtain ⟨hd, hD⟩ := digit_ranges b
  obtain ⟨hw, hW⟩ := word_ranges b
  obtain ⟨hs, hS⟩ := space_ranges b
  have hne : ∀ {x y : Byte}, (x == y) = false → x ≠ y := fun h => beq_eq_false_iff_ne.mp h
  simp only [List.mem_cons, List.not_mem_nil, or_false] at he
  unfold ShorthandHas
  rcases he with rfl | rfl | rfl | rfl | rfl | rfl
  · refine (Bool.eq_iff_iff.mp hd).trans ⟨fun h => .inl ⟨rfl, h⟩, ?_⟩
    rintro (⟨-, h⟩ | ⟨h, -⟩ | ⟨h, -⟩ | ⟨h, -⟩ | ⟨h, -⟩ | ⟨h, -⟩)
    · exact h
    all_goals exact absurd h (hne rfl)
  · refine (Bool.eq_iff_iff.mp hw).trans ⟨fun h => .inr (.inl ⟨rfl, h⟩), ?_⟩
    rintro (⟨h, -⟩ | ⟨-, h⟩ | ⟨h, -⟩ | ⟨h, -⟩ | ⟨h, -⟩ | ⟨h, -⟩)
    · exact absurd h (hne rfl)
    · exact h
    all_goals exact absurd h (hne rfl)
  · refine (Bool.eq_iff_iff.mp hs).trans ⟨fun h => .inr (.inr (.inl ⟨rfl, h⟩)), ?_⟩
    rintro (⟨h, -⟩ | ⟨h, -⟩ | ⟨-, h⟩ | ⟨h, -⟩ | ⟨h, -⟩ | ⟨h, -⟩)
    · exact absurd h (hne rfl)
    · exact absurd h (hne rfl)
    · exact h
    all_goals exact absurd h (hne rfl)
  · refine (Bool.eq_iff_iff.mp hD).trans ?_
    rw [Bool.not_eq_true']
    refine ⟨fun h => .inr (.inr (.inr (.inl ⟨rfl, h⟩))), ?_⟩
    rintro (⟨h, -⟩ | ⟨h, -⟩ | ⟨h, -⟩ | ⟨-, h⟩ | ⟨h, -⟩ | ⟨h, -⟩)
    · exact absurd h (hne rfl)
    · exact absurd h (hne rfl)
    · exact absurd h (hne rfl)
    · exact h
    all_goals exact absurd h (hne rfl)
  · refine (Bool.eq_iff_iff.mp hW).trans ?_
    rw [Bool.not_eq_true']
    refine ⟨fun h => .inr (.inr (.inr (.inr (.inl ⟨rfl, h⟩)))), ?_⟩
    rintro (⟨h, -⟩ | ⟨h, -⟩ | ⟨h, -⟩ | ⟨h, -⟩ | ⟨-, h⟩ | ⟨h, -⟩)
    · exact absurd h (hne rfl)
    · exact absurd h (hne rfl)
    · exact absurd h (hne rfl)
    · exact absurd h (hne rfl)
    · exact h
    · exact absurd h (hne rfl)
  · refine (Bool.eq_iff_iff.mp hS).trans ?_
    rw [Bool.not_eq_true']
    refine ⟨fun h => .inr (.inr (.inr (.inr (.inr ⟨rfl, h⟩)))), ?_⟩
    rintro (⟨h, -⟩ | ⟨h, -⟩ | ⟨h, -⟩ | ⟨h, -⟩ | ⟨h, -⟩ | ⟨-, h⟩)
    all_goals first
      | exact absurd h (hne rfl)
      | exact h

theorem member_admits {text rest : List Byte} {m : Member} (h : MemberText text m rest) (b : Byte) :
    m.ranges.any (·.admits b) = true ↔ m.Has b := by
  cases h with
  | shorthand he => exact shorthand_admits he b
  | @range lo hi _ _ _ _ _ =>
    rw [Member.ranges, List.any_cons, List.any_nil, Bool.or_false, admits_iff, Member.Has,
      UInt8.le_iff_toNat_le, UInt8.le_iff_toNat_le]
  | @byte c _ _ _ _ =>
    rw [Member.ranges, List.any_cons, List.any_nil, Bool.or_false, admits_iff, Member.Has,
      ← UInt8.toNat_inj]
    dsimp only
    omega

theorem members_admit {first : Bool} {text rest : List Byte} {members : List Member}
    (h : MembersText first text members rest) (icase : Bool) (b : Byte) :
    InClass (members.flatMap Member.ranges) icase b ↔ MembersHave members icase b := by
  have hm : ∀ m ∈ members, ∀ b, m.ranges.any (·.admits b) = true ↔ m.Has b := by
    induction h with
    | close => exact nofun
    | member _ hm _ ih => exact List.forall_mem_cons.mpr ⟨member_admits hm, ih⟩
  constructor
  · rintro ⟨r, hr, hadm⟩
    obtain ⟨m, hmem, hr⟩ := List.mem_flatMap.mp hr
    refine ⟨m, hmem, ?_⟩
    rcases hadm with hadm | ⟨h1, h2, hadm⟩
    · exact .inl ((hm m hmem b).mp (List.any_eq_true.mpr ⟨r, hr, hadm⟩))
    · exact .inr ⟨h1, h2, (hm m hmem _).mp (List.any_eq_true.mpr ⟨r, hr, hadm⟩)⟩
  · rintro ⟨m, hmem, hhas | ⟨h1, h2, hhas⟩⟩
    · obtain ⟨r, hr, hadm⟩ := List.any_eq_true.mp ((hm m hmem b).mpr hhas)
      exact ⟨r, List.mem_flatMap.mpr ⟨m, hmem, hr⟩, .inl hadm⟩
    · obtain ⟨r, hr, hadm⟩ := List.any_eq_true.mp ((hm m hmem _).mpr hhas)
      exact ⟨r, List.mem_flatMap.mpr ⟨m, hmem, hr⟩, .inr ⟨h1, h2, hadm⟩⟩

theorem classText_admits {text rest : List Byte} {negated : Bool} {members : List Member}
    (h : ClassText text negated members rest) (icase : Bool) (b : Byte) :
    InClass (members.flatMap Member.ranges) icase b ↔ MembersHave members icase b := by
  cases h with
  | negated h => exact members_admit h icase b
  | plain _ h => exact members_admit h icase b

/-! ### The instruction of a class -/

/-- The instruction that a class compiles to, wherever its code is put. -/
def ClassInst (ranges : List Range) (negated icase : Bool) (ins : Inst) : Prop :=
  ∀ code, (compileNode (.charClass ranges negated icase) code).2[code.length]? = some ins

/-- A parsed class compiles to an instruction that admits the bytes that its members have, or the
others if it is negated. -/
structure ClassIsSet (p q : Parser) (a : Ast) (negated : Bool) (members : List Member) (ins : Inst) :
    Prop where
  text : ClassText p.rest negated members q.rest
  parsed : a = .charClass (members.flatMap Member.ranges) negated p.flags.icase
  inst : ClassInst (members.flatMap Member.ranges) negated p.flags.icase ins
  admits : ∀ b, ins.op.admits b = true ↔
    (MembersHave members p.flags.icase b ↔ negated = false)

/-- **A class is the set that it says, if and only if it is not negated or its ranges are
orderly.** -/
theorem class_isSet_iff {p q : Parser} {a : Ast} (h : parseCharClass p = .ok (a, q)) :
    ∃ negated members, ClassText p.rest negated members q.rest ∧
      ((∃ ins, ClassIsSet p q a negated members ins) ↔ (negated = true →
        Orderly (classRanges (members.flatMap Member.ranges) p.flags.icase))) := by
  obtain ⟨negated, ranges, rest, hclass, rfl, rfl⟩ := parseCharClass_iff.mp h
  obtain ⟨members, hmembers, rfl⟩ := class_iff.mp hclass
  refine ⟨negated, members, hmembers, ?_⟩
  have hinst : ClassInst (members.flatMap Member.ranges) negated p.flags.icase
      ⟨classOp (if negated then complementRanges (classRanges (members.flatMap Member.ranges)
        p.flags.icase) else classRanges (members.flatMap Member.ranges) p.flags.icase), 0, 0⟩ := by
    intro code
    rw [compileNode]
    exact List.getElem?_concat_length ..
  have hset := classText_admits hmembers p.flags.icase
  constructor
  · rintro ⟨ins, hset'⟩ rfl
    obtain rfl := Option.some.inj ((hset'.inst []).symm.trans (hinst []))
    rw [← complementOk_iff]
    intro b
    have hadm := hset'.admits b
    rw [if_pos rfl, classOp_admits, ← hset b, inClass_iff] at hadm
    rw [Bool.eq_iff_iff, hadm]
    simp only [Bool.true_eq_false, iff_false, Bool.not_eq_true, Bool.not_eq_true']
  · intro hord
    refine ⟨_, hmembers, rfl, hinst, fun b => ?_⟩
    rw [classOp_admits, ← hset b, inClass_iff]
    cases negated with
    | false =>
      rw [if_neg Bool.false_ne_true]
      exact (iff_true_right rfl).symm
    | true =>
      rw [if_pos rfl, (complementOk_iff _).mpr (hord rfl) b]
      simp only [Bool.true_eq_false, iff_false, Bool.not_eq_true, Bool.not_eq_true']

/-- Of `[^a-c]`, without its bracket. -/
theorem class_isSet_letters :
    ∃ negated members, ClassText [94, 97, 45, 99, 93] negated members [] ∧
      ((∃ ins, ClassIsSet ⟨[94, 97, 45, 99, 93], 0, ⟨false, false, false⟩⟩
          ⟨[], 0, ⟨false, false, false⟩⟩ (.charClass [⟨97, 99⟩] true false) negated members ins) ↔
        (negated = true → Orderly (classRanges (members.flatMap Member.ranges) false))) :=
  class_isSet_iff (p := ⟨[94, 97, 45, 99, 93], 0, ⟨false, false, false⟩⟩)
    (q := ⟨[], 0, ⟨false, false, false⟩⟩) rfl

/-- `[^b-cz-a]` admits the `b` between the ends of its reversed range. -/
theorem not_class_isSet : ∃ p q a negated members, parseCharClass p = .ok (a, q) ∧
    ClassText p.rest negated members q.rest ∧ ¬ ∃ ins, ClassIsSet p q a negated members ins := by
  have hchar : ∀ {c : Byte} {rest : List Byte}, (c == ch '\\') = false → ClassChar (c :: rest) c rest :=
    fun h => .plain (beq_eq_false_iff_ne.mp h)
  have htext : ClassText [94, 98, 45, 99, 122, 45, 97, 93] true
      [.range 98 99, .range 122 97] [] := by
    have hsecond : MemberText [122, 45, 97, 93] (.range 122 97) [93] :=
      .range (hchar rfl) (.plain (beq_eq_false_iff_ne.mp rfl) (beq_eq_false_iff_ne.mp rfl))
    have hfirst : MemberText [98, 45, 99, 122, 45, 97, 93] (.range 98 99) [122, 45, 97, 93] :=
      .range (hchar rfl) (.plain (beq_eq_false_iff_ne.mp rfl) (beq_eq_false_iff_ne.mp rfl))
    have hrest : MembersText false [122, 45, 97, 93] [.range 122 97] [] :=
      .member (fun h => absurd h (by decide)) hsecond .close
    exact .negated (.member (fun _ => rfl) hfirst hrest)
  refine ⟨⟨[94, 98, 45, 99, 122, 45, 97, 93], 0, ⟨false, false, false⟩⟩, ⟨[], 0, ⟨false, false, false⟩⟩,
    .charClass [⟨98, 99⟩, ⟨122, 97⟩] true false, true, [.range 98 99, .range 122 97], rfl, htext, ?_⟩
  rintro ⟨ins, hset⟩
  have hins := hset.inst []
  have hop : ins.op = .cls [⟨0, 97⟩, ⟨100, 121⟩, ⟨98, 255⟩] := by
    rw [compileNode] at hins
    obtain rfl := Option.some.inj hins
    rfl
  have hadm := hset.admits 98
  rw [hop] at hadm
  have hhas : MembersHave [.range 98 99, .range 122 97] false 98 :=
    ⟨.range 98 99, List.mem_cons_self, .inl ⟨UInt8.le_refl _, Nat.le_of_ble_eq_true rfl⟩⟩
  exact absurd ((hadm.mp rfl).mp hhas) nofun

end Jacl.Regex
