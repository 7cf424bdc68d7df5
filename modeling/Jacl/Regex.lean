import Mathlib

/-!
# Regular expressions (`lib/regex/nfa.h`): trees and the parser

A recursive descent over the bytes of a pattern.  What is left of the pattern, the groups so far
and the flags make the state; a function that returns a null tree without an error gives `none`,
and has consumed nothing.  The depth of the recursion is not bounded by the code: the functions
take fuel, and `spent` says that it did not suffice.

Failing allocations are left out, and numbers of groups are unbounded.
-/

namespace Jacl.Regex

abbrev Byte : Type := UInt8

/-- The byte of a character of the source. -/
def ch (c : Char) : Byte := c.toUInt8

inductive Err where
  | unmatchedLparen
  | unmatchedRparen
  | trailingBackslash
  | invalidEscape
  | unmatchedLbracket
  | invalidGroup
  | repeatRange
deriving DecidableEq, Repr

/-- Why there is no tree. -/
inductive Stop where
  | error (e : Err)
  | spent
deriving DecidableEq, Repr

structure Flags where
  dotAll : Bool
  multiline : Bool
  icase : Bool
deriving DecidableEq, Repr

inductive Anchor where
  | bol
  | eol
  | word
  | nonWord
deriving DecidableEq, Repr

structure Range where
  lo : Byte
  hi : Byte
deriving DecidableEq, Repr

/-- No `max` is the `-1` of an unbounded repetition. -/
inductive Ast where
  | literal (bytes : List Byte) (icase : Bool)
  | dot (dotAll : Bool)
  | anchor (kind : Anchor)
  | charClass (ranges : List Range) (negated icase : Bool)
  | concat (children : List Ast)
  | alt (children : List Ast)
  | repeated (child : Ast) (min : Nat) (max : Option Nat) (greedy : Bool)
  | group (child : Ast) (index : Nat)
deriving Repr

structure Parser where
  rest : List Byte
  groupCount : Nat
  flags : Flags

def fail {β : Type} (e : Err) : Except Stop β := .error (.error e)

/-! ### Character classes -/

/-- `_nfa_add_shorthand`. -/
def addShorthand (which : Byte) : Option (List Range) :=
  if which = ch 'd' then some [⟨ch '0', ch '9'⟩]
  else if which = ch 'w' then
    some [⟨ch 'a', ch 'z'⟩, ⟨ch 'A', ch 'Z'⟩, ⟨ch '0', ch '9'⟩, ⟨ch '_', ch '_'⟩]
  else if which = ch 's' then some [⟨32, 32⟩, ⟨9, 9⟩, ⟨10, 10⟩, ⟨13, 13⟩, ⟨12, 12⟩, ⟨11, 11⟩]
  else none

/-- What `\D`, `\W` and `\S` add inside of a class. -/
def addComplement (which : Byte) : Option (List Range) :=
  if which = ch 'D' then some [⟨0, ch '0' - 1⟩, ⟨ch '9' + 1, 255⟩]
  else if which = ch 'W' then
    some [⟨0, ch '0' - 1⟩, ⟨ch '9' + 1, ch 'A' - 1⟩, ⟨ch 'Z' + 1, ch '_' - 1⟩,
      ⟨ch '_' + 1, ch 'a' - 1⟩, ⟨ch 'z' + 1, 255⟩]
  else if which = ch 'S' then some [⟨0, 8⟩, ⟨14, 31⟩, ⟨33, 255⟩]
  else none

def classShorthand (e : Byte) : Option (List Range) := (addShorthand e).or (addComplement e)

/-- The upper end of a range, after a `\`. -/
def parseEscapedEnd (lo : Byte) : List Byte → Except Stop (List Range × List Byte)
  | [] => fail .trailingBackslash
  | hi :: rest => .ok ([⟨lo, hi⟩], rest)

/-- After a character of a class: a `-` makes a range unless the class or the pattern ends. -/
def parseClassRange (c : Byte) : List Byte → Except Stop (List Range × List Byte)
  | d :: x :: rest =>
    if d = ch '-' ∧ x ≠ ch ']' then
      if x = ch '\\' then parseEscapedEnd c rest else .ok ([⟨c, x⟩], rest)
    else .ok ([⟨c, c⟩], d :: x :: rest)
  | rest => .ok ([⟨c, c⟩], rest)

def parseClassEscape : List Byte → Except Stop (List Range × List Byte)
  | [] => fail .trailingBackslash
  | e :: rest =>
    match classShorthand e with
    | some ranges => .ok (ranges, rest)
    | none => parseClassRange e rest

/-- One round of the loop over the members of a class. -/
def parseClassItem : List Byte → Except Stop (List Range × List Byte)
  | [] => fail .unmatchedLbracket
  | c :: rest => if c = ch '\\' then parseClassEscape rest else parseClassRange c rest

/-- The loop; its rounds take a byte at least, and as many as there are bytes are enough. -/
def parseClassItems : Nat → Bool → List Byte → Except Stop (List Range × List Byte)
  | n + 1, first, c :: rest =>
    if c = ch ']' ∧ first = false then .ok ([], rest)
    else do
      let (ranges, rest) ← parseClassItem (c :: rest)
      let (more, rest) ← parseClassItems n false rest
      pure (ranges ++ more, rest)
  | _, _, _ => fail .unmatchedLbracket

/-- After the `[`. -/
def parseCharClass (p : Parser) : Except Stop (Ast × Parser) := do
  let (negated, text) :=
    match p.rest with
    | c :: rest => if c = ch '^' then (true, rest) else (false, p.rest)
    | [] => (false, [])
  let (ranges, rest) ← parseClassItems text.length true text
  pure (.charClass ranges negated p.flags.icase, { p with rest })

/-! ### Quantifiers -/

def isDigit (c : Byte) : Bool := ch '0' ≤ c && c ≤ ch '9'

def digit (c : Byte) : Nat := (c - ch '0').toNat

def repeatMax : Nat := 100000

def parseNumber : Nat → List Byte → Option (Nat × List Byte)
  | n, [] => some (n, [])
  | n, c :: rest =>
    if isDigit c then
      if repeatMax < n * 10 + digit c then none else parseNumber (n * 10 + digit c) rest
    else some (n, c :: rest)

def parseDigits : List Byte → Option (Nat × List Byte)
  | [] => none
  | c :: rest => if isDigit c then parseNumber 0 (c :: rest) else none

/-- After the `{`; where this is no counted repetition, the parser goes back to it. -/
def parseCount (text : List Byte) : Option (Nat × Option Nat × List Byte) :=
  match parseDigits text with
  | some (n, c :: rest) =>
    if c = ch '}' then some (n, some n, rest)
    else if c = ch ',' then
      match rest with
      | [] => none
      | d :: rest' =>
        if d = ch '}' then some (n, none, rest')
        else
          match parseDigits rest with
          | some (m, c :: rest) => if c = ch '}' then some (n, some m, rest) else none
          | _ => none
    else none
  | _ => none

/-- Whether the repetition is greedy. -/
def parseLazy : List Byte → Bool × List Byte
  | [] => (true, [])
  | c :: rest => if c = ch '?' then (false, rest) else (true, c :: rest)

def simpleQuantifier (c : Byte) : Option (Nat × Option Nat) :=
  if c = ch '*' then some (0, none)
  else if c = ch '+' then some (1, none)
  else if c = ch '?' then some (0, some 1)
  else none

/-- What `_nfa_parse_repeat` does after the atom. -/
def parseQuantifier (atom : Ast) (p : Parser) : Except Stop (Ast × Parser) :=
  match p.rest with
  | [] => .ok (atom, p)
  | c :: rest =>
    match simpleQuantifier c with
    | some (min, max) =>
      let (greedy, rest) := parseLazy rest
      .ok (.repeated atom min max greedy, { p with rest })
    | none =>
      if c = ch '{' then
        match parseCount rest with
        | none => .ok (atom, p)
        | some (min, max, rest) =>
          if max.any (· < min) then fail .repeatRange
          else
            let (greedy, rest) := parseLazy rest
            .ok (.repeated atom min max greedy, { p with rest })
      else .ok (atom, p)

/-! ### Atoms without a pattern inside -/

def utf8Len (b : Byte) : Nat :=
  if b < 0x80 then 1
  else if b &&& 0xE0 = 0xC0 then 2
  else if b &&& 0xF0 = 0xE0 then 3
  else if b &&& 0xF8 = 0xF0 then 4
  else 1

def metachars : List Byte :=
  [ch '.', ch '\\', ch '|', ch '(', ch ')', ch '*', ch '+', ch '?', ch '[', ch ']', ch '{', ch '}',
    ch '^', ch '$']

/-- After the `\`. -/
def parseEscape (p : Parser) : List Byte → Except Stop (Ast × Parser)
  | [] => fail .trailingBackslash
  | e :: rest =>
    if e = ch 'd' ∨ e = ch 'w' ∨ e = ch 's' then
      .ok (.charClass ((addShorthand e).getD []) false p.flags.icase, { p with rest })
    else if e = ch 'D' ∨ e = ch 'W' ∨ e = ch 'S' then
      .ok (.charClass ((addShorthand (e + (ch 'a' - ch 'A'))).getD []) true p.flags.icase,
        { p with rest })
    else if e = ch 'b' then .ok (.anchor .word, { p with rest })
    else if e = ch 'B' then .ok (.anchor .nonWord, { p with rest })
    else if e ∈ metachars then .ok (.literal [e] p.flags.icase, { p with rest })
    else fail .invalidEscape

/-- A byte, or a sequence of the length that its first byte announces. -/
def parseLiteral (p : Parser) (c : Byte) : Except Stop (Ast × Parser) :=
  let slen := if p.rest.length < utf8Len c then 1 else utf8Len c
  .ok (.literal (p.rest.take slen) p.flags.icase, { p with rest := p.rest.drop slen })

/-- The cases of `_nfa_parse_atom` that do not call the parser again. -/
def parseLeaf (p : Parser) (c : Byte) (rest : List Byte) : Except Stop (Ast × Parser) :=
  if c = ch '.' then .ok (.dot p.flags.dotAll, { p with rest })
  else if c = ch '^' then .ok (.anchor .bol, { p with rest })
  else if c = ch '$' then .ok (.anchor .eol, { p with rest })
  else if c = ch '[' then parseCharClass { p with rest }
  else if c = ch '\\' then parseEscape p rest
  else parseLiteral p c

/-! ### The parser -/

def setFlag (f : Flags) (c : Byte) : Option Flags :=
  if c = ch 's' then some { f with dotAll := true }
  else if c = ch 'm' then some { f with multiline := true }
  else if c = ch 'i' then some { f with icase := true }
  else none

/-- The flags, and whether there was one. -/
def parseFlags : Flags → Bool → List Byte → Flags × Bool × List Byte
  | f, has, [] => (f, has, [])
  | f, has, c :: rest =>
    match setFlag f c with
    | some f => parseFlags f true rest
    | none => (f, has, c :: rest)

/-- The `)` of a group. -/
def closeGroup (p : Parser) : Except Stop Parser :=
  match p.rest with
  | [] => fail .unmatchedLparen
  | c :: rest => if c = ch ')' then .ok { p with rest } else fail .unmatchedLparen

/-- The parts of a concatenation: a single one stands for itself. -/
def concatOf : List Ast → Ast
  | [part] => part
  | parts => .concat parts

def altOf (first : Ast) : List Ast → Ast
  | [] => first
  | branches => .alt (first :: branches)

mutual

def parseRegex : Nat → Parser → Except Stop (Ast × Parser)
  | 0, _ => .error .spent
  | n + 1, p => do
    let (first, p) ← parseConcat n p
    let (branches, p) ← parseBranches n p
    pure (altOf first branches, p)

def parseBranches : Nat → Parser → Except Stop (List Ast × Parser)
  | 0, _ => .error .spent
  | n + 1, p =>
    match p.rest with
    | [] => pure ([], p)
    | c :: rest =>
      if c = ch '|' then do
        let (branch, p) ← parseConcat n { p with rest }
        let (branches, p) ← parseBranches n p
        pure (branch :: branches, p)
      else pure ([], p)

def parseConcat : Nat → Parser → Except Stop (Ast × Parser)
  | 0, _ => .error .spent
  | n + 1, p => do
    let (parts, p) ← parseParts n p
    pure (concatOf parts, p)

def parseParts : Nat → Parser → Except Stop (List Ast × Parser)
  | 0, _ => .error .spent
  | n + 1, p =>
    match p.rest with
    | [] => pure ([], p)
    | c :: _ =>
      if c = ch '|' ∨ c = ch ')' then pure ([], p)
      else do
        match ← parseRepeat n p with
        | none => pure ([], p)
        | some (part, p) =>
          let (parts, p) ← parseParts n p
          pure (part :: parts, p)

def parseRepeat : Nat → Parser → Except Stop (Option (Ast × Parser))
  | 0, _ => .error .spent
  | n + 1, p => do
    match ← parseAtom n p with
    | none => pure none
    | some (atom, p) =>
      let (part, p) ← parseQuantifier atom p
      pure (some (part, p))

def parseAtom : Nat → Parser → Except Stop (Option (Ast × Parser))
  | 0, _ => .error .spent
  | n + 1, p =>
    match p.rest with
    | [] => pure none
    | c :: rest =>
      if c = ch '(' then parseGroup n { p with rest }
      else if c = ch ')' ∨ c = ch '|' ∨ c = ch '*' ∨ c = ch '+' ∨ c = ch '?' then pure none
      else do
        let (atom, p) ← parseLeaf p c rest
        pure (some (atom, p))

/-- After the `(`. -/
def parseGroup : Nat → Parser → Except Stop (Option (Ast × Parser))
  | 0, _ => .error .spent
  | n + 1, p =>
    if p.rest.head? = some (ch '?') then
      let (flags, hasFlags, text) := parseFlags p.flags false p.rest.tail
      match text with
      | [] => fail .unmatchedLparen
      | c :: rest =>
        if c = ch ':' then do
          let (inner, q) ← parseRegex n { p with rest, flags }
          let q ← closeGroup q
          pure (some (inner, { q with flags := p.flags }))
        else if c = ch ')' ∧ hasFlags then pure (some (.concat [], { p with rest, flags }))
        else fail .invalidGroup
    else do
      let (inner, q) ← parseRegex n { p with groupCount := p.groupCount + 1 }
      let q ← closeGroup q
      pure (some (.group inner p.groupCount, q))

end

def start (pattern : List Byte) : Parser := ⟨pattern, 0, ⟨false, false, false⟩⟩

def nfaParse (pattern : List Byte) : Except Stop Ast := do
  let (ast, p) ← parseRegex (6 * pattern.length + 6) (start pattern)
  if p.rest.head? = some (ch ')') then fail .unmatchedRparen
  pure ast

end Jacl.Regex
