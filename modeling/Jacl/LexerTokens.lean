import Mathlib

/-!
# Tokens and numbers (`lexer.c`)

The source is a byte string at an address; past its end the lexer reads the final
`'\0'`.  The state of the lexer holds what is left of the source from `pos` on, the
tokens pushed so far and the error count.  Loops that advance over a run of characters
are written as the length of the run.

A payload is a union of a pointer and an `int64_t`: negating the value of a token whose
payload is a pointer negates the pointer.
-/

namespace Jacl.Lexing

/-- `TokenType`, as far as the lexer makes them. -/
inductive TokenType
  | lbracket | rbracket | lbrace | rbrace | lparen | rparen | semicolon | comma
  | word | operator | int | float
  | string | string_begin | string_part | string_end
  | interp_var | interp_expr_start | interp_expr_end
  | var | dollar_bracket | dollar_paren
  | use | struct | pipe | arrow | backslash | bang | dotdot | amp | and | or | not | tilde_at
  | proc | defmacro | quote | syntax_quote | ifTok | elif | elseTok | whileTok | forTok | defTok
  | mut | set | matchTok | returnTok | breakTok | continueTok | tryTok | ctx | externTok
  | caret_word | newline | error | eof
deriving DecidableEq, Repr

/-- `payload`: a value, a pointer into the source, a string buffer (its bytes, a `'\0'`
after them), a message, or the decimal digits that a `float` is made from. -/
inductive Payload
  | none
  | int (int_val : Int)
  | text (ptr : Nat)
  | buf (data : List Nat)
  | float (negative : Bool) (whole frac : List Nat)
  | msg (error_msg : String)
deriving DecidableEq, Repr

/-- `Token`. -/
structure Token where
  type : TokenType
  line : Nat
  column : Nat
  offset : Nat
  length : Nat
  payload : Payload
  is_big : Bool
deriving DecidableEq, Repr

/-- The source: its address and its bytes. -/
structure Source where
  addr : Nat
  bytes : List Nat

/-- A place in the source, as tokens record it. -/
structure Mark where
  pos : Nat
  line : Nat
  col : Nat
deriving DecidableEq, Repr

/-- `Lexer`, `TokenArray` and the error count. -/
structure Lexer where
  pos : Nat
  line : Nat
  col : Nat
  rest : List Nat
  arr : List Token
  error_count : Nat
deriving DecidableEq, Repr

/-- `lexer__init`. -/
def init (src : Source) : Lexer := ⟨0, 1, 1, src.bytes, [], 0⟩

namespace Lexer

/-- `lex->source[lex->pos + k]`. -/
def charAt (lex : Lexer) (k : Nat) : Nat := lex.rest.getD k 0

/-- `lexer__peek`. -/
def peek (lex : Lexer) : Nat := lex.charAt 0

/-- `k` times `lexer__advance`. -/
def advanceBy (k : Nat) (lex : Lexer) : Lexer :=
  { lex with pos := lex.pos + k, col := lex.col + k, rest := lex.rest.drop k }

/-- `lexer__advance`. -/
def advance (lex : Lexer) : Lexer := advanceBy 1 lex

/-- `lex->line++; lex->col = 1;` -/
def bumpLine (lex : Lexer) : Lexer := { lex with line := lex.line + 1, col := 1 }

/-- The current place. -/
def mark (lex : Lexer) : Mark := ⟨lex.pos, lex.line, lex.col⟩

/-- `lexer__make_token`. -/
def makeToken (lex : Lexer) (type : TokenType) (start : Mark) : Token :=
  ⟨type, start.line, start.col, start.pos, lex.pos - start.pos, .none, false⟩

/-- `lexer__arr_push`. -/
def push (lex : Lexer) (tok : Token) : Lexer := { lex with arr := lex.arr ++ [tok] }

/-- A token from `start` to the current place. -/
def emit (lex : Lexer) (type : TokenType) (start : Mark) (payload : Payload) : Lexer :=
  lex.push { lex.makeToken type start with payload := payload }

/-- An error token from `start` to the current place. -/
def fail (lex : Lexer) (start : Mark) (error_msg : String) : Lexer :=
  let lex := lex.emit .error start (.msg error_msg)
  { lex with error_count := lex.error_count + 1 }

/-- `while (p(lexer__peek(lex))) lexer__advance(lex);` -/
def skipWhile (p : Nat → Bool) (lex : Lexer) : Lexer :=
  lex.advanceBy (lex.rest.takeWhile p).length

@[simp] theorem advanceBy_arr (k : Nat) (lex : Lexer) : (lex.advanceBy k).arr = lex.arr := rfl

@[simp] theorem advanceBy_pos (k : Nat) (lex : Lexer) : (lex.advanceBy k).pos = lex.pos + k := rfl

@[simp] theorem emit_arr (lex : Lexer) (type : TokenType) (start : Mark) (payload : Payload) :
    (lex.emit type start payload).arr =
      lex.arr ++ [{ lex.makeToken type start with payload := payload }] := rfl

@[simp] theorem fail_arr (lex : Lexer) (start : Mark) (error_msg : String) :
    (lex.fail start error_msg).arr =
      lex.arr ++ [{ lex.makeToken .error start with payload := .msg error_msg }] := rfl

@[simp] theorem skipWhile_arr (p : Nat → Bool) (lex : Lexer) : (lex.skipWhile p).arr = lex.arr := rfl

end Lexer

open Lexer

/-! ### Character classes -/

/-- A decimal digit. -/
def isDigit (c : Nat) : Bool := '0'.toNat ≤ c ∧ c ≤ '9'.toNat

/-- `lexer__is_word_start`. -/
def isWordStart (c : Nat) : Bool :=
  ('a'.toNat ≤ c ∧ c ≤ 'z'.toNat) ∨ ('A'.toNat ≤ c ∧ c ≤ 'Z'.toNat) ∨ c = '_'.toNat ∨ 0x80 ≤ c

/-- `lexer__is_word_char`. -/
def isWordChar (c : Nat) : Bool :=
  isWordStart c || isDigit c || c = '-'.toNat || c = '?'.toNat || c = '!'.toNat

/-- How far `lexer__is_word_char_no_arrow` goes on. -/
def wordLen : List Nat → Nat
  | [] => 0
  | c :: l => if isWordChar c ∧ ¬ (c = '-'.toNat ∧ l.headD 0 = '>'.toNat) then wordLen l + 1 else 0

/-- The bytes of a text. -/
def bytes (s : String) : List Nat := s.toList.map Char.toNat

/-- `lexer__is_operator_char`. -/
def isOperatorChar (c : Nat) : Bool := c ∈ bytes "!%&*+-./:<=>?@\\^|~"

/-- `lexer__is_operator_value`. -/
def isOperatorValue (s : List Nat) : Bool :=
  s ∈ ["+", "-", "*", "/", "%", "<", ">", "==", "!=", "<=", ">=", "&&", "||"].map bytes

/-- `while (lexer__is_word_char_no_arrow(lex)) lexer__advance(lex);` -/
def skipWord (lex : Lexer) : Lexer := lex.advanceBy (wordLen lex.rest)

/-! ### Numbers -/

/-- The `int64_t` of a payload, or its `float`, negated. -/
def Payload.negate : Payload → Payload
  | .int v => .int (-v)
  | .text ptr => .text ((2 ^ 64 - ptr) % 2 ^ 64)
  | .float negative whole frac => .float (!negative) whole frac
  | p => p

/-- What `lexer__maybe_lex_neg_number` does to the token of the magnitude. -/
def Token.patch (start : Mark) (tok : Token) : Token :=
  { tok with
    offset := start.pos, line := start.line, column := start.col, length := tok.length + 1,
    payload := if tok.type = .int ∨ tok.type = .float then tok.payload.negate else tok.payload }

end Jacl.Lexing
