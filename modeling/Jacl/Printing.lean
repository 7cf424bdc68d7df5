import Jacl.Numerals

/-!
# Printing values (`runtime/io.c`, `runtime/builtins.c`)

`jacl_to_string` renders a value into a buffer of 2048 bytes; `jacl_print` has branches of its own,
and copies what it prints through buffers on the stack.

A value is a tree, as the accessors give its parts: an element's flags are not looked at, and a
map's entries are in the order of its iterator.  A string is its bytes.  The floats are a
parameter: what `repr_fmt_fp` asks of a double, and the numbers that it makes of it, which are
`uint64_t`s.  What `jacl_print` writes is what it hands to `jacl_out`, piece by piece.
-/

namespace Jacl.Printing

/-- Bytes, as numbers. -/
abbrev Bytes : Type := List Nat

def text (s : String) : Bytes := s.toList.map Char.toNat

/-- What `repr_fmt_fp` does with doubles. -/
structure FloatOps (F : Type) where
  isNan : F → Bool
  isNeg : F → Bool
  neg : F → F
  isInf : F → Bool
  /-- `v < 1.0e13`, `v < 1.8e19`, `v >= 10.0`. -/
  below13 : F → Bool
  below18 : F → Bool
  ge10 : F → Bool
  tenth : F → F
  /-- `(uint64_t)(v * 1000000.0 + 0.5)`, `(uint64_t)v`. -/
  scaled : F → BitVec 64
  whole : F → BitVec 64

inductive Val (F : Type) where
  | nil
  | bool (b : Bool)
  | i32 (x : BitVec 32)
  | f32 (x : F)
  | f64 (x : F)
  | wide (x : BitVec 64)
  | big (x : Int)
  | str (b : Bytes)
  | vec (es : List (Val F))
  | typedVec (es : List (Val F))
  | map (kvs : List (Val F × Val F))
  /-- An array, or a flat buffer. -/
  | arr (es : List (Val F))
  | struct (name : Val F) (fields : List (Val F × Val F))
  /-- With its signature, if there is one. -/
  | closure (sig : Option Bytes)
  | ptr (addr : BitVec 64) (name : Val F)
  | box (v : Val F)
  | atom (v : Val F)
  /-- Of a type that is not rendered. -/
  | other

/-- A value with its error flag. -/
structure Word (F : Type) where
  error : Bool
  val : Val F

/-! ### Rendering -/

/-- `JACL_EQ_MAP_CAP`. -/
def eqMapCap : Nat := 64

/-- `JACL_BIG_DECIMAL_MAX`. -/
def bigDecimalMax : Nat := 1300

/-- `repr_put`, with the buffer of `jacl_to_string`. -/
def reprPut (rb s : Bytes) : Bytes := rb ++ s.take (2048 - rb.length)

/-- The loop that peels digits off, the last one first. -/
def digitsBack (u : Nat) : Bytes := (Nat.digits 10 u).map fun d => '0'.toNat + d

/-- `if (u == 0)` and that loop, turned around. -/
def decimal (u : Nat) : Bytes :=
  ((if u = 0 then ['0'.toNat] else []) ++ digitsBack u).reverse

/-- Six digits, without the zeros at the end. -/
def fraction (fp : Nat) : Bytes :=
  (((List.range 6).reverse.map fun k => '0'.toNat + fp / 10 ^ k % 10).reverse.dropWhile
    (· = '0'.toNat)).reverse

/-- The point and the fraction, if there is one. -/
def pointed (fp : Nat) : Bytes := if fp = 0 then [] else text "." ++ fraction fp

section Render

variable {F : Type} (ops : FloatOps F)

/-- `while (v >= 10.0)`, with the exponent; a double comes below ten in 400 rounds. -/
def reduce : Nat → F → Nat → F × Nat
  | 0, v, exp => (v, exp)
  | n + 1, v, exp => if ops.ge10 v then reduce n (ops.tenth v) (exp + 1) else (v, exp)

def exponent (exp : Nat) : Bytes :=
  (if 100 ≤ exp then ['0'.toNat + exp / 100] else []) ++
    (if 10 ≤ exp then ['0'.toNat + exp / 10 % 10] else []) ++ ['0'.toNat + exp % 10]

/-- The magnitude of a double that is finite. -/
def finiteText (v : F) : Bytes :=
  if ops.below13 v then
    let scaled := (ops.scaled v).toNat
    decimal (scaled / 1000000) ++ pointed (scaled % 1000000)
  else if ops.below18 v then digitsBack (ops.whole v).toNat |>.reverse
  else
    let (v, exp) := reduce ops 400 v 0
    let m := (ops.scaled v).toNat
    let (m, exp) := if 10000000 ≤ m then (m / 10, exp + 1) else (m, exp)
    ['0'.toNat + m / 1000000 % 10] ++ pointed (m % 1000000) ++ text "e+" ++ exponent exp

/-- What `repr_fmt_fp` puts. -/
def reprFmtFp (v : F) : Bytes :=
  if ops.isNan v then text "nan"
  else
    let sign := if ops.isNeg v then text "-" else []
    let v := if ops.isNeg v then ops.neg v else v
    sign ++ if ops.isInf v then text "inf" else finiteText ops v

/-- What `repr_i32` puts. -/
def reprI32 (x : BitVec 32) : Bytes :=
  let u := if x.toInt < 0 then (BitVec.ofInt 32 (-x.toInt)).toNat else x.toNat
  (if x.toInt < 0 then text "-" else []) ++ decimal u

def reprWide (x : BitVec 64) : Bytes :=
  let u := if x.toInt < 0 then (-x).toNat else x.toNat
  (if x.toInt < 0 then text "-" else []) ++ decimal u

/-- `jacl_big_to_decimal`; a bigint that does not fit is not shown. -/
def reprBig (x : Int) : Bytes :=
  let s := (if x < 0 then text "-" else []) ++ decimal x.natAbs
  if s.length + 1 ≤ bigDecimalMax then s else text "<bigint>"

def hexBack (u : Nat) : Bytes :=
  (Nat.digits 16 u).map fun d => if d < 10 then '0'.toNat + d else 'a'.toNat + d - 10

def reprHex (u : Nat) : Bytes := ((if u = 0 then ['0'.toNat] else []) ++ hexBack u).reverse

/-- A string goes through a buffer of 1024 bytes. -/
def reprStr (rb : Bytes) (quoted : Bool) (b : Bytes) : Bytes :=
  if quoted then reprPut (reprPut (reprPut rb (text "\"")) (b.take 1023)) (text "\"")
  else reprPut rb (b.take 1023)

mutual

/-- `repr_val`. -/
def reprVal (rb : Bytes) (quoted : Bool) : Val F → Bytes
  | .str b => reprStr rb quoted b
  | .nil => reprPut rb (text "nil")
  | .bool b => reprPut rb (if b then text "true" else text "false")
  | .i32 x => reprPut rb (reprI32 x)
  | .f32 x => reprPut rb (reprFmtFp ops x)
  | .wide x => reprPut rb (reprWide x)
  | .big x => reprPut rb (reprBig x)
  | .f64 x => reprPut rb (reprFmtFp ops x)
  | .vec es => reprPut (reprSpaced (reprPut rb (text "[vec")) es) (text "]")
  | .typedVec es => reprPut (reprCommas (reprPut rb (text "[")) true es) (text "]")
  | .closure (some sig) => reprStr rb false sig
  | .closure none => reprPut rb (text "<closure>")
  | .ptr addr name =>
    let rb := reprVal (reprPut rb (text "Ptr<")) false name
    reprPut (reprPut (reprPut rb (text ">(0x")) (reprHex addr.toNat)) (text ")")
  | .map kvs => reprPut (reprPairs (reprPut rb (text "[map")) true eqMapCap kvs) (text "]")
  | .arr es => reprPut (reprSpaced (reprPut rb (text "[arr")) es) (text "]")
  | .struct name fields =>
    let rb := reprVal (reprPut rb (text "[")) false name
    reprPut (reprPairs rb false fields.length fields) (text "]")
  | .box v => reprPut (reprVal (reprPut rb (text "<box: ")) true v) (text ">")
  | .atom v => reprPut (reprVal (reprPut rb (text "<atom: ")) true v) (text ">")
  | .other => reprPut rb (text "?")

/-- Elements, with a blank before each. -/
def reprSpaced (rb : Bytes) : List (Val F) → Bytes
  | [] => rb
  | e :: es => reprSpaced (reprVal (reprPut rb (text " ")) true e) es

/-- Elements, with a comma before each but the first. -/
def reprCommas (rb : Bytes) (first : Bool) : List (Val F) → Bytes
  | [] => rb
  | e :: es =>
    reprCommas (reprVal (if first then rb else reprPut rb (text ", ")) true e) false es

/-- At most `n` pairs, each with a blank before its key and its value. -/
def reprPairs (rb : Bytes) (quoted : Bool) : Nat → List (Val F × Val F) → Bytes
  | 0, _ => rb
  | _ + 1, [] => rb
  | n + 1, kv :: kvs =>
    let rb := reprVal (reprPut rb (text " ")) quoted kv.1
    reprPairs (reprVal (reprPut rb (text " ")) true kv.2) quoted n kvs

end

/-- The bytes of the string that `jacl_str_new` makes: a short one ends at its first NUL. -/
def strNew (b : Bytes) : Bytes := if b.length ≤ 7 then b.takeWhile (· ≠ 0) else b

/-- The bytes of `jacl_to_string`'s string, if it gives one. -/
def toString (v : Val F) : Option Bytes :=
  match v with
  | .str b => some b
  | .other => none
  | v => some (strNew (reprVal ops [] true v))

/-! ### Printing -/

/-- `jacl_itoa`. -/
def jaclItoa (v : Int) : Bytes :=
  let u := if v < 0 then (-(v + 1)).toNat + 1 else v.toNat
  (if v < 0 then text "-" else []) ++ (('0'.toNat + u % 10) :: digitsBack (u / 10)).reverse

/-- Through a buffer of `n` bytes. -/
def through (n : Nat) (s : Option Bytes) : Bytes := (s.getD []).take (n - 1)

/-- `jacl_print`: what it hands to `jacl_out`. -/
def print (w : Word F) : List Bytes :=
  if w.error then [text "<error: ", through 1024 (toString ops w.val), text ">\n"]
  else
    match w.val with
    | .str b => [through 1024 (some b), text "\n"]
    | .i32 x => [jaclItoa x.toInt ++ text "\n"]
    | .f32 x => [through 64 (toString ops (.f32 x)), text "\n"]
    | .nil => [text "nil\n"]
    | .bool b => [if b then text "true\n" else text "false\n"]
    | .other => [text "?\n"]
    | v => [through 2048 (toString ops v), text "\n"]

/-- What is to be printed for the string that `jacl_to_string` gives. -/
def Word.shown (w : Word F) (s : Bytes) : Bytes :=
  if w.error then text "<error: " ++ s ++ text ">\n" else s ++ text "\n"

/-- The bytes that there is room for. -/
def Word.room (w : Word F) : Nat :=
  if w.error then 1023
  else
    match w.val with
    | .str _ => 1023
    | _ => 2047

end Render

/-! ### What is short -/

theorem reprPut_nil {s : Bytes} (hs : s.length ≤ 2048) : reprPut [] s = s :=
  List.take_of_length_le hs

theorem strNew_eq {s : Bytes} (h0 : 0 ∉ s) : strNew s = s := by
  rw [strNew]
  split
  · rw [List.takeWhile_eq_self_iff]
    intro x hx
    rw [decide_eq_true_iff]
    rintro rfl
    exact h0 hx
  · rfl

theorem zero_not_mem_digit (d : Nat) : 0 ∉ ['0'.toNat + d] := by
  have h0 : '0'.toNat = 48 := rfl
  rw [List.mem_singleton]
  omega

theorem length_digitsBack {u k : Nat} (hu : u < 10 ^ k) : (digitsBack u).length ≤ k := by
  rw [digitsBack, List.length_map]
  exact (Nat.digits_length_le_iff (by decide) u).mpr hu

theorem length_decimal {u k : Nat} (hk : 0 < k) (hu : u < 10 ^ k) : (decimal u).length ≤ k := by
  rw [decimal, List.length_reverse, List.length_append]
  by_cases h0 : u = 0
  · subst h0
    exact hk
  · rw [if_neg h0, List.length_nil, Nat.zero_add]
    exact length_digitsBack hu

theorem zero_not_mem_digitsBack (u : Nat) : 0 ∉ digitsBack u := by
  intro h
  obtain ⟨d, -, hd⟩ := List.mem_map.mp h
  exact absurd hd (by simp)

theorem zero_not_mem_decimal (u : Nat) : 0 ∉ decimal u := by
  rw [decimal, List.mem_reverse, List.mem_append, not_or]
  refine ⟨?_, zero_not_mem_digitsBack u⟩
  split <;> simp

theorem length_fraction (fp : Nat) : (fraction fp).length ≤ 6 := by
  rw [fraction, List.length_reverse]
  refine Nat.le_trans (List.length_dropWhile_le _ _) ?_
  simp

theorem zero_not_mem_fraction (fp : Nat) : 0 ∉ fraction fp := by
  rw [fraction, List.mem_reverse]
  intro h
  have hmem := (List.dropWhile_suffix _).subset h
  rw [List.mem_reverse] at hmem
  obtain ⟨k, -, hk⟩ := List.mem_map.mp hmem
  exact absurd hk (by simp)

theorem length_pointed (fp : Nat) : (pointed fp).length ≤ 7 := by
  have hfrac := length_fraction fp
  have hdot : (text ".").length = 1 := by decide
  rw [pointed]
  split
  · exact Nat.zero_le 7
  · rw [List.length_append]
    omega

theorem zero_not_mem_pointed (fp : Nat) : 0 ∉ pointed fp := by
  rw [pointed]
  split
  · exact List.not_mem_nil
  · rw [List.mem_append, not_or]
    exact ⟨by decide, zero_not_mem_fraction fp⟩

theorem length_exponent (exp : Nat) : (exponent exp).length ≤ 3 := by
  rw [exponent]
  split <;> split <;> simp

theorem zero_not_mem_exponent (exp : Nat) : 0 ∉ exponent exp := by
  rw [exponent, List.mem_append, List.mem_append, not_or, not_or]
  refine ⟨⟨?_, ?_⟩, zero_not_mem_digit _⟩
  · split
    · exact zero_not_mem_digit _
    · exact List.not_mem_nil
  · split
    · exact zero_not_mem_digit _
    · exact List.not_mem_nil

section Render

variable {F : Type} (ops : FloatOps F)

theorem length_finiteText (v : F) : (finiteText ops v).length ≤ 21 := by
  have hscaled := (ops.scaled v).isLt
  have hwhole := (ops.whole v).isLt
  rw [finiteText]
  split
  · have hint : (decimal ((ops.scaled v).toNat / 1000000)).length ≤ 14 :=
      length_decimal (by decide) (by omega)
    have hfrac := length_pointed ((ops.scaled v).toNat % 1000000)
    rw [List.length_append]
    omega
  · split
    · have hint : (digitsBack (ops.whole v).toNat).length ≤ 20 := length_digitsBack (by omega)
      rw [List.length_reverse]
      omega
    · have he : (text "e+").length = 2 := by decide
      simp only [List.length_append, List.length_singleton, he]
      have hfrac := length_pointed
        ((if 10000000 ≤ (ops.scaled (reduce ops 400 v 0).1).toNat then
          ((ops.scaled (reduce ops 400 v 0).1).toNat / 10, (reduce ops 400 v 0).2 + 1)
        else ((ops.scaled (reduce ops 400 v 0).1).toNat, (reduce ops 400 v 0).2)).1 % 1000000)
      have hexp := length_exponent
        (if 10000000 ≤ (ops.scaled (reduce ops 400 v 0).1).toNat then
          ((ops.scaled (reduce ops 400 v 0).1).toNat / 10, (reduce ops 400 v 0).2 + 1)
        else ((ops.scaled (reduce ops 400 v 0).1).toNat, (reduce ops 400 v 0).2)).2
      omega

theorem zero_not_mem_finiteText (v : F) : 0 ∉ finiteText ops v := by
  rw [finiteText]
  split
  · rw [List.mem_append, not_or]
    exact ⟨zero_not_mem_decimal _, zero_not_mem_pointed _⟩
  · split
    · rw [List.mem_reverse]
      exact zero_not_mem_digitsBack _
    · simp only [List.mem_append, not_or]
      exact ⟨⟨⟨zero_not_mem_digit _, zero_not_mem_pointed _⟩, by decide⟩, zero_not_mem_exponent _⟩

/-- **A double's text is short**, and has no NUL. -/
theorem reprFmtFp_short (v : F) : (reprFmtFp ops v).length ≤ 22 ∧ 0 ∉ reprFmtFp ops v := by
  have hsign : ∀ b : Bool, ((if b then text "-" else []) : Bytes).length ≤ 1 ∧
      0 ∉ (if b then text "-" else [] : Bytes) := by decide
  have hrest : ∀ v : F, (if ops.isInf v then text "inf" else finiteText ops v).length ≤ 21 ∧
      0 ∉ (if ops.isInf v then text "inf" else finiteText ops v) := by
    intro v
    split
    · decide
    · exact ⟨length_finiteText ops v, zero_not_mem_finiteText ops v⟩
  rw [reprFmtFp]
  split
  · decide
  · obtain ⟨hlen, h0⟩ := hsign (ops.isNeg v)
    obtain ⟨hlen', h0'⟩ := hrest (if ops.isNeg v then ops.neg v else v)
    rw [List.length_append, List.mem_append, not_or]
    exact ⟨Nat.add_le_add hlen hlen', h0, h0'⟩

theorem reprI32_short (x : BitVec 32) : (reprI32 x).length ≤ 11 ∧ 0 ∉ reprI32 x := by
  have hlt : ∀ u : BitVec 32, (decimal u.toNat).length ≤ 10 := fun u => by
    have := u.isLt
    exact length_decimal (by decide) (by omega)
  rw [reprI32]
  simp only [List.length_append, List.mem_append, not_or]
  split
  · have hminus : (text "-").length = 1 ∧ 0 ∉ text "-" := by decide
    have hlen := hlt (BitVec.ofInt 32 (-x.toInt))
    exact ⟨by omega, hminus.2, zero_not_mem_decimal _⟩
  · have hlen := hlt x
    exact ⟨by simp only [List.length_nil]; omega, List.not_mem_nil, zero_not_mem_decimal _⟩

/-- The loop of `jacl_itoa` tests after its round, the other one before. -/
theorem digits_after (u : Nat) :
    (('0'.toNat + u % 10) :: digitsBack (u / 10)).reverse = decimal u := by
  rw [decimal]
  by_cases h0 : u = 0
  · subst h0
    rfl
  · rw [if_neg h0, List.nil_append, digitsBack, digitsBack,
      Nat.digits_def' (by decide) (Nat.pos_of_ne_zero h0), List.map_cons]

/-- **Both renderings of an i32** are the same. -/
theorem jaclItoa_eq (x : BitVec 32) : jaclItoa x.toInt = reprI32 x := by
  have hlt := x.isLt
  have hint := BitVec.toInt_eq_toNat_cond x
  rw [jaclItoa, reprI32]
  simp only [digits_after]
  by_cases hneg : x.toInt < 0
  · have hu : (-(x.toInt + 1)).toNat + 1 = (BitVec.ofInt 32 (-x.toInt)).toNat := by
      rw [BitVec.toNat_ofInt]
      split at hint <;> omega
    simp only [hneg, if_true, hu]
  · have hu : x.toInt.toNat = x.toNat := by
      split at hint <;> omega
    simp only [hneg, if_false, hu]

/-! ### Printing what is rendered -/

theorem through_eq {n : Nat} {s : Bytes} : through (n + 1) (some s) = s ↔ s.length ≤ n :=
  List.take_eq_self_iff s

/-- A text between two others, through a buffer. -/
theorem flatten_through {n : Nat} {s a b : Bytes} :
    [a, through (n + 1) (some s), b].flatten = a ++ s ++ b ↔ s.length ≤ n := by
  rw [← through_eq, List.flatten_cons, List.flatten_cons, List.flatten_singleton, List.append_assoc,
    List.append_right_inj, List.append_left_inj]

theorem flatten_through_line {n : Nat} {s b : Bytes} :
    [through (n + 1) (some s), b].flatten = s ++ b ↔ s.length ≤ n := by
  rw [← through_eq, List.flatten_cons, List.flatten_singleton, List.append_left_inj]

/-- **Printing**: the bytes are those of the string and a newline (of an error, its payload's in
brackets) if and only if they fit into the buffer. -/
theorem print_iff {w : Word F} {s : Bytes} (h : toString ops w.val = some s) :
    (print ops w).flatten = w.shown s ↔ s.length ≤ w.room := by
  obtain ⟨error, v⟩ := w
  change toString ops v = some s at h
  cases error with
  | true =>
    show [text "<error: ", through 1024 (toString ops v), text ">\n"].flatten =
      text "<error: " ++ s ++ text ">\n" ↔ s.length ≤ 1023
    rw [h]
    exact flatten_through
  | false =>
    cases v with
    | str b =>
      obtain rfl := Option.some.inj h
      exact flatten_through_line
    | i32 x =>
      obtain ⟨hlen, h0⟩ := reprI32_short x
      have hs : s = reprI32 x := by
        rw [← Option.some.inj h, reprVal, reprPut_nil (by omega), strNew_eq h0]
      show [jaclItoa x.toInt ++ text "\n"].flatten = s ++ text "\n" ↔ s.length ≤ 2047
      rw [List.flatten_singleton, jaclItoa_eq, hs]
      exact iff_of_true rfl (by omega)
    | f32 x =>
      obtain ⟨hlen, h0⟩ := reprFmtFp_short ops x
      have hs : s = reprFmtFp ops x := by
        rw [← Option.some.inj h, reprVal, reprPut_nil (by omega), strNew_eq h0]
      show [through 64 (toString ops (.f32 x)), text "\n"].flatten = s ++ text "\n" ↔ s.length ≤ 2047
      rw [h]
      exact flatten_through_line.trans (iff_of_true (by rw [hs]; omega) (by rw [hs]; omega))
    | nil =>
      have hs : s = text "nil" := by
        rw [← Option.some.inj h, reprVal]
        decide
      show text "nil\n" ++ [] = s ++ text "\n" ↔ s.length ≤ 2047
      rw [hs]
      decide
    | bool b =>
      have hs : s = if b then text "true" else text "false" := by
        rw [← Option.some.inj h, reprVal]
        cases b <;> decide
      show (if b then text "true\n" else text "false\n") ++ [] = s ++ text "\n" ↔ s.length ≤ 2047
      rw [hs]
      cases b <;> decide
    | other => contradiction
    | _ =>
      -- the other types go through `jacl_to_string`, and a buffer of their own
      show [through 2048 (toString ops _), text "\n"].flatten = s ++ text "\n" ↔ s.length ≤ 2047
      rw [h]
      exact flatten_through_line

end Render

/-- No floats are looked at. -/
def FloatOps.none : FloatOps Unit :=
  ⟨fun _ => false, fun _ => false, id, fun _ => false, fun _ => true, fun _ => true, fun _ => false, id,
    fun _ => 0, fun _ => 0⟩

/-- A vector. -/
theorem print_iff_vec :
    (print FloatOps.none ⟨false, .vec [.bool true, .nil]⟩).flatten = text "[vec true nil]\n" := by
  have h : toString FloatOps.none (.vec [.bool true, .nil]) = some (text "[vec true nil]") := by
    simp only [toString, reprVal, reprSpaced, if_true]
    decide
  have hprint := (print_iff FloatOps.none (w := ⟨false, .vec [.bool true, .nil]⟩) h).mpr (by decide)
  rw [hprint]
  decide

/-- A string of 1024 bytes. -/
def longString : Word Unit := ⟨false, .str (List.replicate 1024 'a'.toNat)⟩

/-- **A long string** is cut off. -/
theorem not_print : ¬ ∀ s, toString FloatOps.none longString.val = some s →
    (print FloatOps.none longString).flatten = longString.shown s := by
  intro hall
  have hlen := (print_iff FloatOps.none rfl).mp (hall _ rfl)
  rw [List.length_replicate] at hlen
  exact absurd hlen (by decide)

end Jacl.Printing
