import Jacl.Wire
import Jacl.KeyConsistency

/-!
# The layout of a frame

`jv_put` does one of three things with a value: it writes a scalar into the head, it
appends a segment of bytes, or it appends a segment of heads and writes a value into
each.  `ViewOf` says which, and `put_cases` that nothing else is done when no error is
reported.  `Enc` states what the frame then holds, in terms the decoder reads.
-/

namespace Jacl.Wire
open JaclVal Bytes

/-- What crosses for a value. -/
inductive View where
  | scalar (tag : Tag) (x n : Nat)
  | data (tag : Tag) (s : List (BitVec 8))
  /-- The heads of a segment, what its slot counts, and how deep they are below. -/
  | heads (tag : Tag) (count : Nat) (cs : List JaclVal) (step : Nat)

/-- The leaves of a map as the heads of its segment. -/
def entryHeads (t : Hamt.Node JaclVal JaclVal) : List JaclVal :=
  (Hamt.entries 7 t).flatMap fun l => [l.key, l.value]

/-- **What crosses for which value.** -/
inductive ViewOf (h : Heap) (v : JaclVal) : View → Prop
  | error : v.error = true → ViewOf h v (.heads .error 1 [{ v with error := false }] 2)
  | nil : v.error = false → v.type = 0x00 → ViewOf h v (.scalar .nil 0 0)
  | bool : v.error = false → v.type = 0x01 → ViewOf h v (.scalar .bool (v.payload % 2) 1)
  | i32 : v.error = false → v.type = 0x02 → ViewOf h v (.scalar .i32 (v.payload % 2 ^ 32) 4)
  | f32 : v.error = false → v.type = 0x03 → ViewOf h v (.scalar .f32 (v.payload % 2 ^ 32) 4)
  | i64 {bits : BitVec 64} : v.error = false → v.type = 0x0E →
      h.cells v.payload = some (.wide bits) → ViewOf h v (.scalar .i64 bits.toNat 8)
  | f64 {bits : BitVec 64} : v.error = false → v.type = 0x10 →
      h.cells v.payload = some (.wide bits) → ViewOf h v (.scalar .f64 bits.toNat 8)
  | u64 {sign : Int} {limb : List Nat} {x : Nat} : v.error = false → v.type = 0x09 →
      h.cells v.payload = some (.big sign limb) → bigToU64 sign limb = some x →
      ViewOf h v (.scalar .u64 x 8)
  | inline : v.error = false → v.type = 0x04 → ViewOf h v (.data .text (inlineBytes v.payload))
  | str {s : List (BitVec 8)} : v.error = false → v.type = 0x05 →
      h.cells v.payload = some (.str s) → ViewOf h v (.data .text s)
  | bytes {code : Nat} {data : List (BitVec 8)} : v.error = false → v.type = 0x1E →
      h.cells v.payload = some (.fbuf 1 code data) → code ≤ 1 → ViewOf h v (.data .bytes data)
  | vec {r : RrbVec.Root JaclVal} : v.error = false → kindOf v = 0x06 → vecRoot h v = some r →
      ViewOf h v (.heads .vec r.count (vecElems r) 2)
  | map {t : Hamt.Node JaclVal JaclVal} : v.error = false → v.type = 0x07 →
      mapRoot h v = some t → ViewOf h v (.heads .map (Hamt.count t) (entryHeads t) 3)

/-- **A value as a program builds it**, to a depth: bigints, strings, byte buffers and
maps in the form the runtime gives them. -/
def WellFormed (h : Heap) : Nat → JaclVal → Prop
  | 0, _ => True
  | n + 1, v =>
    (v.type = 0x09 → ∃ x, Builtins.Canonical h { v with error := false } x) ∧
    (v.type = 0x05 → ∀ s, h.cells v.payload = some (.str s) → 7 < s.length) ∧
    (v.type = 0x1E → ∀ nd code data, h.cells v.payload = some (.fbuf nd code data) →
      data.length < 2 ^ 31) ∧
    (kindOf v = 0x06 → ∀ r, vecRoot h v = some r → ∀ x ∈ vecElems r, WellFormed h n x) ∧
    (v.type = 0x07 → ∀ t, mapRoot h v = some t →
      Hamt.count t = (Hamt.entries 7 t).length ∧
      ∀ l ∈ Hamt.entries 7 t, l.key.error = false ∧ l.value.error = false ∧
        WellFormed h n l.key ∧ WellFormed h n l.value)

/-- What `jv_put` does with a view. -/
def putView (put : JvEnc → JaclVal → Nat → Nat → Option JvEnc) (e : JvEnc) (pos depth : Nat) :
    View → Option JvEnc
  | .scalar .nil _ _ => some e
  | .scalar tag x n => some (putScalar e pos tag x n)
  | .data tag s => some (putBytes (putLe e pos tag.code 1) (pos + 8) s)
  | .heads tag count cs step =>
    putList (fun e c pos => put e c pos (depth + step)) (putLe e pos tag.code 1) cs
      (cs.length * headSize) count (pos + 8)

theorem putHeads_error {put : JvEnc → JaclVal → Nat → Option JvEnc} {e : JvEnc}
    (he : e.err.isSome = true) (cs : List JaclVal) (off : Nat) :
    putHeads put e cs off = some e := by
  cases cs with
  | nil => rfl
  | cons c cs => rw [putHeads, if_pos he]

/-- `jv_put` does nothing once an error is reported. -/
theorem put_error {h : Heap} {fuel : Nat} {e : JvEnc} (he : e.err.isSome = true) (v : JaclVal)
    (pos depth : Nat) : put h (fuel + 1) e v pos depth = some e := by
  rw [put, if_pos he]

/-- The one head of an error's segment. -/
theorem putHeads_single (h : Heap) (fuel : Nat) (e : JvEnc) (c : JaclVal) (off depth : Nat)
    {e' : JvEnc} (hput : put h fuel e c off depth = some e') :
    putHeads (fun e c pos => put h fuel e c pos depth) e [c] off = some e' := by
  rw [putHeads]
  split
  · rename_i he
    cases fuel with
    | zero => cases hput
    | succ fuel => rwa [put_error he] at hput
  · rw [hput]
    rfl

/-- **Everything `jv_put` can do** without reporting an error. -/
theorem put_cases {h : Heap} {fuel : Nat} {e e' : JvEnc} {v : JaclVal} {pos depth n : Nat}
    (hput : put h (fuel + 1) e v pos depth = some e') (he : e.err = none) (he' : e'.err = none)
    (hwf : WellFormed h (n + 1) v) :
    v.tainted = false ∧ v.secret = false ∧ ∃ w, ViewOf h v w ∧
      putView (put h fuel) { e with heads := e.heads ++ [pos] } pos depth w = some e' := by
  obtain ⟨-, -, -, -, hmap⟩ := hwf
  -- the branches that report an error do not end without one
  have hfail : ∀ {x : JvEnc}, some x = some e' → x.err ≠ none → False := by
    intro x hx herr
    rw [← Option.some.inj hx] at he'
    exact herr he'
  rw [put, if_neg (by simp [he])] at hput
  by_cases hdeep : maxDepth < depth ∨ (depth = maxDepth ∧ v ≠ nil)
  · rw [if_pos hdeep] at hput
    exact (hfail hput (by simp)).elim
  rw [if_neg hdeep] at hput
  by_cases hflag : (v.tainted || v.secret) = true
  · rw [if_pos hflag] at hput
    exact (hfail hput (by simp)).elim
  rw [if_neg hflag] at hput
  obtain ⟨htaint, hsecret⟩ := Bool.or_eq_false_iff.mp (Bool.not_eq_true _ ▸ hflag)
  refine ⟨htaint, hsecret, ?_⟩
  simp only at hput
  by_cases hv : v.error = true
  · rw [if_pos hv] at hput
    exact ⟨_, .error hv, putHeads_single h fuel _ _ _ _ hput⟩
  rw [if_neg hv] at hput
  rw [Bool.not_eq_true] at hv
  by_cases h0 : v.type = 0x00
  · rw [if_pos h0] at hput
    exact ⟨_, .nil hv h0, hput⟩
  rw [if_neg h0] at hput
  by_cases h1 : v.type = 0x01
  · rw [if_pos h1] at hput
    exact ⟨_, .bool hv h1, hput⟩
  rw [if_neg h1] at hput
  by_cases h2 : v.type = 0x02
  · rw [if_pos h2] at hput
    exact ⟨_, .i32 hv h2, hput⟩
  rw [if_neg h2] at hput
  by_cases h3 : v.type = 0x03
  · rw [if_pos h3] at hput
    exact ⟨_, .f32 hv h3, hput⟩
  rw [if_neg h3] at hput
  by_cases hE : v.type = 0x0E
  · rw [if_pos hE] at hput
    split at hput
    · rename_i hc
      exact ⟨_, .i64 hv hE hc, hput⟩
    · cases hput
  rw [if_neg hE] at hput
  by_cases h10 : v.type = 0x10
  · rw [if_pos h10] at hput
    split at hput
    · rename_i hc
      exact ⟨_, .f64 hv h10 hc, hput⟩
    · cases hput
  rw [if_neg h10] at hput
  by_cases h9 : v.type = 0x09
  · rw [if_pos h9] at hput
    split at hput
    · rename_i hc
      split at hput
      · rename_i hx
        exact ⟨_, .u64 hv h9 hc hx, hput⟩
      · exact (hfail hput (by simp)).elim
    · cases hput
  rw [if_neg h9] at hput
  by_cases h4 : v.type = 0x04
  · rw [if_pos h4] at hput
    exact ⟨_, .inline hv h4, hput⟩
  rw [if_neg h4] at hput
  by_cases h5 : v.type = 0x05
  · rw [if_pos h5] at hput
    split at hput
    · rename_i hc
      exact ⟨_, .str hv h5 hc, hput⟩
    · cases hput
  rw [if_neg h5] at hput
  by_cases h1E : v.type = 0x1E
  · rw [if_pos h1E] at hput
    split at hput
    · rename_i hc
      split at hput
      · rename_i hcode
        rw [hcode.1] at hc
        exact ⟨_, .bytes hv h1E hc hcode.2, hput⟩
      · exact (hfail hput (by simp)).elim
    · cases hput
  rw [if_neg h1E] at hput
  by_cases h6 : v.type = 0x06 ∨ v.type = 0x1B
  · rw [if_pos h6] at hput
    have hkind : kindOf v = 0x06 := by rcases h6 with h6 | h6 <;> simp [kindOf, h6]
    split at hput
    · rename_i r hr
      refine ⟨_, .vec hv hkind hr, ?_⟩
      rw [putView, length_vecElems]
      exact hput
    · cases hput
  rw [if_neg h6] at hput
  by_cases h7 : v.type = 0x07
  · rw [if_pos h7] at hput
    split at hput
    · rename_i t ht
      obtain ⟨hcount, -⟩ := hmap h7 t ht
      have hlen : (entryHeads t).length * headSize = Hamt.count t * entrySize := by
        rw [entryHeads, List.length_flatMap, hcount]
        simp [headSize, entrySize]
        omega
      rw [hcount, List.take_length, ← hcount] at hput
      refine ⟨_, .map hv h7 ht, ?_⟩
      rw [putView, hlen]
      exact hput
    · cases hput
  rw [if_neg h7] at hput
  exact (hfail hput (by simp)).elim

/-! ### What a frame holds -/

/-- **The value `v` is encoded** with its head at `pos` and its segments in `[lo, hi)`. -/
def Enc (h : Heap) (m : Memory) : Nat → JaclVal → Nat → Nat → Nat → Prop
  | 0, _, _, _, _ => False
  | n + 1, v, pos, lo, hi => ∃ w, ViewOf h v w ∧
      match w with
      | .scalar tag x k => (m pos).toNat = tag.code ∧ le m (pos + 8) k = x % 2 ^ (8 * k)
      | .data tag s => (m pos).toNat = tag.code ∧
          ∃ off, le m (pos + 8) 4 = off ∧ le m (pos + 12) 4 = s.length ∧
            slice m off s.length = s ∧ (s ≠ [] → lo ≤ off ∧ off + s.length ≤ hi)
      | .heads tag count cs _ => (m pos).toNat = tag.code ∧
          ∃ off, le m (pos + 8) 4 = off ∧ le m (pos + 12) 4 = count ∧
            (cs ≠ [] → lo ≤ off ∧ off + cs.length * headSize ≤ hi) ∧
            ∀ i c, cs[i]? = some c → ∃ lo' hi', lo ≤ lo' ∧ hi' ≤ hi ∧
              Enc h m n c (off + i * headSize) lo' hi'

theorem ViewOf.scalar_le {h : Heap} {v : JaclVal} {tag : Tag} {x k : Nat}
    (hw : ViewOf h v (.scalar tag x k)) : k ≤ 8 := by
  cases hw <;> omega

/-- An encoding is read from its head and its segments only. -/
theorem Enc.congr {h : Heap} {m m' : Memory} {n : Nat} {v : JaclVal} {pos lo hi : Nat}
    (hv : Enc h m n v pos lo hi) (hhead : SameOn m m' pos (pos + headSize))
    (htail : SameOn m m' lo hi) : Enc h m' n v pos lo hi := by
  induction n generalizing v pos lo hi with
  | zero => exact hv
  | succ n ih =>
    obtain ⟨w, hw, hv⟩ := hv
    have hhead' : SameOn m m' pos (pos + 16) := hhead
    have htag : m' pos = m pos := hhead' pos (by omega) (by omega)
    have hle : ∀ p k, pos ≤ p → p + k ≤ pos + 16 → le m' p k = le m p k :=
      fun p k h1 h2 => le_congr (hhead'.mono h1 h2)
    refine ⟨w, hw, ?_⟩
    cases w with
    | scalar tag x k =>
      have hk := hw.scalar_le
      exact ⟨by rw [htag]; exact hv.1, by rw [hle _ _ (by omega) (by omega)]; exact hv.2⟩
    | data tag s =>
      obtain ⟨ht, off, hoff, hlen, hs, hin⟩ := hv
      refine ⟨by rw [htag]; exact ht, off, by rw [hle _ _ (by omega) (by omega)]; exact hoff,
        by rw [hle _ _ (by omega) (by omega)]; exact hlen, ?_, hin⟩
      by_cases hne : s = []
      · subst hne
        rfl
      · obtain ⟨h1, h2⟩ := hin hne
        rw [slice_congr (htail.mono h1 h2), hs]
    | heads tag count cs step =>
      obtain ⟨ht, off, hoff, hlen, hin, hcs⟩ := hv
      refine ⟨by rw [htag]; exact ht, off, by rw [hle _ _ (by omega) (by omega)]; exact hoff,
        by rw [hle _ _ (by omega) (by omega)]; exact hlen, hin, fun i c hc => ?_⟩
      obtain ⟨lo', hi', hlo, hhi, henc⟩ := hcs i c hc
      obtain ⟨hlt, -⟩ := List.getElem?_eq_some_iff.mp hc
      obtain ⟨h1, h2⟩ := hin (List.ne_nil_of_length_pos (by omega))
      -- the child's head is in the segment, its segments in those of the value
      refine ⟨lo', hi', hlo, hhi, ih henc (htail.mono ?_ ?_) (htail.mono hlo hhi)⟩
      · omega
      · have : (i + 1) * headSize ≤ cs.length * headSize := Nat.mul_le_mul_right _ hlt
        rw [Nat.succ_mul] at this
        omega

/-! ### Segments and their places -/

/-- Segments one after the other in `[lo, hi)`, each on a multiple of 8. -/
def Placed (lo hi : Nat) : List (Nat × Nat) → Prop
  | [] => lo ≤ hi
  | (off, n) :: ss => lo ≤ off ∧ off % 8 = 0 ∧ Placed (off + n) hi ss

theorem Placed.le {lo hi : Nat} {ss : List (Nat × Nat)} (h : Placed lo hi ss) : lo ≤ hi := by
  induction ss generalizing lo with
  | nil => exact h
  | cons s ss ih =>
    obtain ⟨h1, -, h2⟩ := h
    have := ih h2
    omega

theorem Placed.append {lo mid hi : Nat} {ss ss' : List (Nat × Nat)} (h : Placed lo mid ss)
    (h' : Placed mid hi ss') : Placed lo hi (ss ++ ss') := by
  induction ss generalizing lo with
  | nil =>
    cases ss' with
    | nil => exact Nat.le_trans h h'
    | cons s ss' =>
      obtain ⟨h1, h2⟩ := h'
      exact ⟨Nat.le_trans h h1, h2⟩
  | cons s ss ih =>
    obtain ⟨h1, h2, h3⟩ := h
    exact ⟨h1, h2, ih h3⟩

theorem Placed.mem {lo hi : Nat} {ss : List (Nat × Nat)} (h : Placed lo hi ss) {s : Nat × Nat}
    (hs : s ∈ ss) : lo ≤ s.1 ∧ s.1 % 8 = 0 ∧ s.1 + s.2 ≤ hi := by
  induction ss generalizing lo with
  | nil => exact absurd hs List.not_mem_nil
  | cons s' ss ih =>
    obtain ⟨h1, h2, h3⟩ := h
    rcases List.mem_cons.mp hs with rfl | hs
    · exact ⟨h1, h2, h3.le⟩
    · obtain ⟨h4, h5, h6⟩ := ih h3 hs
      exact ⟨by omega, h5, h6⟩

/-- Two segments of a frame share no byte. -/
theorem Placed.disjoint {lo hi : Nat} {ss : List (Nat × Nat)} (h : Placed lo hi ss) :
    ss.Pairwise fun s s' => s.1 + s.2 ≤ s'.1 := by
  induction ss generalizing lo with
  | nil => exact List.Pairwise.nil
  | cons s ss ih =>
    obtain ⟨-, -, h3⟩ := h
    exact List.pairwise_cons.mpr ⟨fun s' hs' => (h3.mem hs').1, ih h3⟩

theorem le_align (len : Nat) : len ≤ align len := by
  rw [align]
  omega

/-- **`jv_segment`** without an error. -/
theorem segment_spec {e e' : JvEnc} {pos n count off : Nat} (hn : n ≠ 0)
    (hseg : segment e pos n count = (e', off)) (he' : e'.err = none) :
    off = align e.len ∧ e'.len = off + n ∧ off + n ≤ 0xFFFFFFFF ∧ e'.heads = e.heads ∧
      e'.segs = e.segs ++ [(off, n)] ∧
      e'.buf = e.buf.map fun m => Bytes.putLe (Bytes.putLe m pos off 4) (pos + 4) count 4 := by
  rw [segment, if_neg hn] at hseg
  obtain ⟨rfl, rfl⟩ := Prod.mk.inj hseg
  simp only [putLe] at he'
  refine ⟨rfl, rfl, ?_, rfl, rfl, ?_⟩
  · by_contra hlt
    by_cases herr : e.err = none
    · rw [if_pos ⟨by omega, herr⟩] at he'
      cases he'
    · rw [if_neg (fun h => herr h.2)] at he'
      exact herr he'
  · simp only [putLe, Option.map_map]
    rfl

theorem WellFormed.of_succ {h : Heap} {n : Nat} {v : JaclVal} (hv : WellFormed h (n + 1) v) :
    WellFormed h n v := by
  induction n generalizing v with
  | zero => trivial
  | succ n ih =>
    obtain ⟨h1, h2, h3, h4, h5⟩ := hv
    refine ⟨h1, h2, h3, fun hk r hr x hx => ih (h4 hk r hr x hx), fun ht t hr => ?_⟩
    obtain ⟨hc, hall⟩ := h5 ht t hr
    refine ⟨hc, fun l hl => ?_⟩
    obtain ⟨h6, h7, h8, h9⟩ := hall l hl
    exact ⟨h6, h7, ih h8, ih h9⟩

/-- The values below a well-formed value are well formed. -/
theorem ViewOf.wellFormed {h : Heap} {n : Nat} {v : JaclVal} {tag : Tag} {count step : Nat}
    {cs : List JaclVal} (hw : ViewOf h v (.heads tag count cs step))
    (hv : WellFormed h (n + 1) v) : ∀ c ∈ cs, WellFormed h n c := by
  cases hw with
  | error he =>
    intro c hc
    rw [List.mem_singleton.mp hc]
    have hv' : WellFormed h (n + 1) { v with error := false } := hv
    exact hv'.of_succ
  | vec he hk hr =>
    obtain ⟨-, -, -, hvec, -⟩ := hv
    exact hvec hk _ hr
  | map he ht hr =>
    obtain ⟨-, -, -, -, hmap⟩ := hv
    intro c hc
    obtain ⟨l, hl, hc⟩ := List.mem_flatMap.mp hc
    obtain ⟨-, -, hk, hval⟩ := (hmap ht _ hr).2 l hl
    rcases List.mem_pair.mp hc with rfl | rfl
    · exact hk
    · exact hval

/-! ### What the encoder does to a frame -/

/-- **One value put into a frame**: the bytes of its head and of the segments it
appended changed, they hold the value, and the segments stand one after the other. -/
structure Puts (h : Heap) (n : Nat) (e e' : JvEnc) (v : JaclVal) (pos : Nat) (m m' : Memory) :
    Prop where
  buf : e'.buf = some m'
  le_max : e'.len ≤ 0xFFFFFFFF
  frame : ∀ i, (i < pos ∨ pos + headSize ≤ i) → (i < e.len ∨ e'.len ≤ i) → m' i = m i
  enc : Enc h m' n v pos e.len e'.len
  segs : ∃ ss, e'.segs = e.segs ++ ss ∧ Placed e.len e'.len ss ∧
    ∃ ps, e'.heads = e.heads ++ ps ∧
      ∀ p ∈ ps, p = pos ∨ ∃ s ∈ ss, s.1 ≤ p ∧ p + headSize ≤ s.1 + s.2

/-- What `put_spec` asks of the frame a value is put into: the head's bytes, and those
past its end up to `top`, are zero. -/
structure Blank (e : JvEnc) (pos top : Nat) (m : Memory) : Prop where
  buf : e.buf = some m
  no_error : e.err = none
  len_le : e.len ≤ 0xFFFFFFFF
  head_le : pos + headSize ≤ e.len
  head_zero : ∀ i, pos ≤ i → i < pos + headSize → m i = 0#8
  zero : ∀ i, e.len ≤ i → i < top → m i = 0#8

/-- The length after a put, for a put of one value at every depth. -/
def Grows (put : JvEnc → JaclVal → Nat → Option JvEnc) (cs : List JaclVal) : Prop :=
  ∀ c ∈ cs, ∀ e e' pos, put e c pos = some e' → e.err = none → e'.err = none → e.len ≤ e'.len

theorem putHeads_err {put : JvEnc → JaclVal → Nat → Option JvEnc} {e e' : JvEnc}
    {cs : List JaclVal} {off : Nat} (hput : putHeads put e cs off = some e') (he' : e'.err = none) :
    e.err = none := by
  by_contra he
  rw [putHeads_error (Option.isSome_iff_ne_none.mpr he)] at hput
  rw [Option.some.inj hput] at he
  exact he he'

theorem putHeads_len {put : JvEnc → JaclVal → Nat → Option JvEnc} {cs : List JaclVal}
    (hgrow : Grows put cs) {e e' : JvEnc} {off : Nat} (hput : putHeads put e cs off = some e')
    (he' : e'.err = none) : e.len ≤ e'.len := by
  induction cs generalizing e off with
  | nil =>
    rw [← Option.some.inj hput]
  | cons c cs ih =>
    have he := putHeads_err hput he'
    rw [putHeads, if_neg (by simp [he])] at hput
    obtain ⟨e₁, h1, h2⟩ := Option.bind_eq_some_iff.mp hput
    have he₁ := putHeads_err h2 he'
    have := hgrow c List.mem_cons_self e e₁ off h1 he he₁
    have := ih (fun c hc => hgrow c (List.mem_cons_of_mem _ hc)) h2
    omega

theorem segment_len (e : JvEnc) (pos n count : Nat) : e.len ≤ (segment e pos n count).1.len := by
  rw [segment]
  split
  · exact Nat.le_refl _
  · have := le_align e.len
    simp only [putLe]
    omega

/-- The frame does not shrink. -/
theorem put_len {h : Heap} {fuel : Nat} {e e' : JvEnc} {v : JaclVal} {pos depth : Nat}
    (hput : put h fuel e v pos depth = some e') (he : e.err = none) (he' : e'.err = none)
    (hwf : WellFormed h fuel v) : e.len ≤ e'.len := by
  induction fuel generalizing e e' v pos depth with
  | zero => cases hput
  | succ fuel ih =>
    obtain ⟨-, -, w, hw, hview⟩ := put_cases hput he he' hwf
    cases w with
    | scalar tag x k =>
      cases tag <;> rw [← Option.some.inj hview] <;> exact Nat.le_refl _
    | data tag s =>
      rw [← Option.some.inj hview]
      exact segment_len (putLe { e with heads := e.heads ++ [pos] } pos tag.code 1) (pos + 8)
        s.length s.length
    | heads tag count cs step =>
      have hseg := segment_len (putLe { e with heads := e.heads ++ [pos] } pos tag.code 1) (pos + 8)
        (cs.length * headSize) count
      have hlist := putHeads_len (fun c hc e₁ e₂ p h1 h2 h3 =>
        ih h1 h2 h3 (hw.wellFormed hwf c hc)) hview he'
      exact Nat.le_trans hseg hlist

/-- The loop over the heads of a segment, from what `jv_put` does with each. -/
theorem putHeads_spec {h : Heap} {n : Nat} {put : JvEnc → JaclVal → Nat → Option JvEnc}
    {cs : List JaclVal} (hgrow : Grows put cs)
    (hput : ∀ c ∈ cs, ∀ e e' pos m, put e c pos = some e' → e'.err = none →
      Blank e pos e'.len m → ∃ m', Puts h n e e' c pos m m')
    {e e' : JvEnc} {off : Nat} {m : Memory} (hheads : putHeads put e cs off = some e')
    (he' : e'.err = none) (hbuf : e.buf = some m) (hlen : e.len ≤ 0xFFFFFFFF)
    (hoff : off + cs.length * headSize ≤ e.len)
    (hzero : ∀ i, off ≤ i → i < off + cs.length * headSize → m i = 0#8)
    (hblank : ∀ i, e.len ≤ i → i < e'.len → m i = 0#8) :
    ∃ m', e'.buf = some m' ∧ e'.len ≤ 0xFFFFFFFF ∧
      (∀ i, (i < off ∨ off + cs.length * headSize ≤ i) → (i < e.len ∨ e'.len ≤ i) → m' i = m i) ∧
      (∀ i c, cs[i]? = some c → ∃ lo hi, e.len ≤ lo ∧ hi ≤ e'.len ∧
        Enc h m' n c (off + i * headSize) lo hi) ∧
      ∃ ss, e'.segs = e.segs ++ ss ∧ Placed e.len e'.len ss ∧
        ∃ ps, e'.heads = e.heads ++ ps ∧
          ∀ p ∈ ps, (off ≤ p ∧ p + headSize ≤ off + cs.length * headSize) ∨
            ∃ s ∈ ss, s.1 ≤ p ∧ p + headSize ≤ s.1 + s.2 := by
  induction cs generalizing e off m with
  | nil =>
    obtain rfl := Option.some.inj hheads
    exact ⟨m, hbuf, hlen, fun i _ _ => rfl, by simp, [], by simp, Nat.le_refl _, [], by simp, by simp⟩
  | cons c cs ih =>
    have he := putHeads_err hheads he'
    rw [putHeads, if_neg (by simp [he])] at hheads
    obtain ⟨e₁, h1, h2⟩ := Option.bind_eq_some_iff.mp hheads
    have he₁ := putHeads_err h2 he'
    have hgrow' : Grows put cs := fun c hc => hgrow c (List.mem_cons_of_mem _ hc)
    have hle₁ := hgrow c List.mem_cons_self e e₁ off h1 he he₁
    have hle₂ := putHeads_len hgrow' h2 he'
    rw [List.length_cons, Nat.succ_mul] at hoff hzero
    -- the first head, with the zeros the others need left as they are
    obtain ⟨m₁, hp⟩ := hput c List.mem_cons_self e e₁ off m h1 he₁
      ⟨hbuf, he, hlen, by omega, fun i h3 h4 => hzero i h3 (by omega),
        fun i h3 h4 => hblank i h3 (by omega)⟩
    obtain ⟨ss₁, hss₁, hpl₁, ps₁, hps₁, hin₁⟩ := hp.segs
    obtain ⟨m', hbuf', hmax, hframe, henc, ss₂, hss₂, hpl₂, ps₂, hps₂, hin₂⟩ :=
      ih hgrow' (fun c hc => hput c (List.mem_cons_of_mem _ hc)) h2 hp.buf hp.le_max (by omega)
        (fun i h3 h4 => by
          rw [hp.frame i (by omega) (by omega)]
          exact hzero i (by omega) (by omega))
        (fun i h3 h4 => by
          rw [hp.frame i (by omega) (by omega)]
          exact hblank i (by omega) h4)
    have hsize : 0 < headSize := by decide
    refine ⟨m', hbuf', hmax, fun i h3 h4 => ?_, fun i c' hc' => ?_, ss₁ ++ ss₂, ?_,
      hpl₁.append hpl₂, ps₁ ++ ps₂, ?_, fun p hp' => ?_⟩
    · rw [List.length_cons, Nat.succ_mul] at h3
      rw [hframe i (by omega) (by omega), hp.frame i (by omega) (by omega)]
    · cases i with
      | zero =>
        obtain rfl : c = c' := by simpa using hc'
        refine ⟨e.len, e₁.len, Nat.le_refl _, hle₂, ?_⟩
        rw [Nat.zero_mul, Nat.add_zero]
        refine hp.enc.congr (fun i h3 h4 => ?_) fun i h3 h4 => ?_
        · exact hframe i (by omega) (by omega)
        · exact hframe i (by omega) (by omega)
      | succ i =>
        obtain ⟨lo, hi, h3, h4, h5⟩ := henc i c' (by simpa using hc')
        refine ⟨lo, hi, by omega, h4, ?_⟩
        rw [Nat.succ_mul, Nat.add_comm (i * headSize), ← Nat.add_assoc]
        exact h5
    · rw [hss₂, hss₁, List.append_assoc]
    · rw [hps₂, hps₁, List.append_assoc]
    · rw [List.length_cons, Nat.succ_mul]
      rcases List.mem_append.mp hp' with hp' | hp'
      · rcases hin₁ p hp' with rfl | ⟨s, hs, h3⟩
        · exact .inl ⟨by omega, by omega⟩
        · exact .inr ⟨s, List.mem_append_left _ hs, h3⟩
      · rcases hin₂ p hp' with h3 | ⟨s, hs, h3⟩
        · exact .inl ⟨by omega, by omega⟩
        · exact .inr ⟨s, List.mem_append_right _ hs, h3⟩

theorem Tag.code_lt (tag : Tag) : tag.code < 2 ^ 8 := by cases tag <;> decide

theorem length_entryHeads (t : Hamt.Node JaclVal JaclVal) :
    (entryHeads t).length = 2 * (Hamt.entries 7 t).length := by
  rw [entryHeads, List.length_flatMap]
  simp
  omega

/-- A slot does not count more than there are heads. -/
theorem ViewOf.count_le {h : Heap} {n : Nat} {v : JaclVal} {tag : Tag} {count step : Nat}
    {cs : List JaclVal} (hw : ViewOf h v (.heads tag count cs step))
    (hv : WellFormed h (n + 1) v) : count ≤ cs.length := by
  cases hw with
  | error he => exact Nat.le_refl _
  | vec he hk hr => rw [length_vecElems]
  | map he ht hr =>
    obtain ⟨-, -, -, -, hmap⟩ := hv
    have := length_entryHeads
    rw [length_entryHeads, (hmap ht _ hr).1]
    omega

/-- A tag's byte, written. -/
theorem putLe_tag (m : Memory) (pos : Nat) (tag : Tag) :
    (Bytes.putLe m pos tag.code 1 pos).toNat = tag.code := by
  rw [Bytes.putLe, if_pos (by omega), Nat.sub_self, Nat.mul_zero, Nat.shiftRight_zero,
    BitVec.toNat_ofNat, Nat.mod_eq_of_lt tag.code_lt]

/-- The memory with a tag and a slot written. -/
def slotted (m : Memory) (pos : Nat) (tag : Tag) (off count : Nat) : Memory :=
  Bytes.putLe (Bytes.putLe (Bytes.putLe m pos tag.code 1) (pos + 8) off 4) (pos + 8 + 4) count 4

theorem slotted_spec (m : Memory) (pos : Nat) (tag : Tag) {off count : Nat} (hoff : off < 2 ^ 32)
    (hcount : count < 2 ^ 32) :
    (slotted m pos tag off count pos).toNat = tag.code ∧
      le (slotted m pos tag off count) (pos + 8) 4 = off ∧
      le (slotted m pos tag off count) (pos + 12) 4 = count ∧
      ∀ i, (i < pos ∨ pos + headSize ≤ i) → slotted m pos tag off count i = m i := by
  refine ⟨?_, ?_, ?_, fun i hi => ?_⟩
  · rw [slotted, putLe_of_outside (by omega), putLe_of_outside (by omega), putLe_tag]
  · rw [slotted, le_congr fun i h1 h2 => putLe_of_outside (by omega), le_putLe]
    exact Nat.mod_eq_of_lt hoff
  · rw [slotted, le_putLe]
    exact Nat.mod_eq_of_lt hcount
  · rw [headSize] at hi
    rw [slotted, putLe_of_outside (by omega), putLe_of_outside (by omega),
      putLe_of_outside (by omega)]

/-- A segment of bytes, put into a blank frame. -/
theorem putBytes_spec {h : Heap} {n : Nat} {e : JvEnc} {v : JaclVal} {pos : Nat} {m : Memory}
    {tag : Tag} {s : List (BitVec 8)} (hw : ViewOf h v (.data tag s))
    (he' : (putBytes (putLe { e with heads := e.heads ++ [pos] } pos tag.code 1) (pos + 8) s).err =
      none)
    (hb : Blank e pos
      (putBytes (putLe { e with heads := e.heads ++ [pos] } pos tag.code 1) (pos + 8) s).len m) :
    ∃ m', Puts h (n + 1) e
      (putBytes (putLe { e with heads := e.heads ++ [pos] } pos tag.code 1) (pos + 8) s) v pos m m' := by
  have hhead : pos + 16 ≤ e.len := hb.head_le
  have hzero : ∀ i, pos ≤ i → i < pos + 16 → m i = 0#8 := hb.head_zero
  by_cases hs : s = []
  · subst hs
    -- the slot of an empty segment stays zero
    refine ⟨Bytes.putLe m pos tag.code 1, ?_, hb.len_le, fun i h1 _ => ?_, ⟨_, hw, putLe_tag m pos tag,
      0, ?_, ?_, rfl, by simp⟩, [], by simp [putBytes, segment, putLe], Nat.le_refl _, [pos],
      rfl, by simp⟩
    · have hcopy : copy (Bytes.putLe m pos tag.code 1) 0 [] = Bytes.putLe m pos tag.code 1 := by
        funext i
        exact copy_of_outside (by simp)
      simp [putBytes, segment, putLe, hb.buf, hcopy]
    · rw [headSize] at h1
      exact putLe_of_outside (by omega)
    · refine le_zero fun i h1 h2 => ?_
      rw [putLe_of_outside (by omega)]
      exact hzero i (by omega) (by omega)
    · refine le_zero fun i h1 h2 => ?_
      rw [putLe_of_outside (by omega)]
      exact hzero i (by omega) (by omega)
  · have hlen : s.length ≠ 0 := fun h0 => hs (List.length_eq_zero_iff.mp h0)
    obtain ⟨e₁, off, hseg⟩ : ∃ e₁ off, segment (putLe { e with heads := e.heads ++ [pos] } pos
        tag.code 1) (pos + 8) s.length s.length = (e₁, off) := ⟨_, _, rfl⟩
    simp only [putBytes, hseg] at he' ⊢
    obtain ⟨hoff, hlen₁, hmax, hheads, hsegs, hbuf₁⟩ := segment_spec hlen hseg he'
    have hal := le_align e.len
    have hoff' : e.len ≤ off := by
      rw [hoff]
      exact hal
    obtain ⟨htag, hslot, hcount, hframe⟩ := slotted_spec m pos tag
      (show off < 2 ^ 32 by omega) (show s.length < 2 ^ 32 by omega)
    refine ⟨copy (slotted m pos tag off s.length) off s, ?_, by rw [hlen₁]; exact hmax, fun i h1 h2 => ?_, ⟨_, hw, ?_, off, ?_, ?_,
      slice_copy, fun _ => ⟨hoff', by rw [hlen₁]⟩⟩, [(off, s.length)], ?_, ?_, [pos], ?_, by simp⟩
    · rw [hbuf₁]
      simp [putLe, hb.buf, slotted]
    · simp only at h2
      rw [copy_of_outside (by omega), hframe i h1]
    · rw [copy_of_outside (by omega), htag]
    · rw [le_congr fun i h1 h2 => copy_of_outside (by omega), hslot]
    · rw [le_congr fun i h1 h2 => copy_of_outside (by omega), hcount]
    · simpa [putLe] using hsegs
    · refine ⟨hoff', ?_, ?_⟩
      · rw [hoff, align]
        exact Nat.mul_mod_left _ 8
      · rw [hlen₁]
        exact Nat.le_refl _
    · simpa [putLe] using hheads

/-- A segment of heads, put into a blank frame. -/
theorem putList_spec {h : Heap} {n : Nat} {put : JvEnc → JaclVal → Nat → Option JvEnc}
    {e e' : JvEnc} {v : JaclVal} {pos : Nat} {m : Memory} {tag : Tag} {count step : Nat}
    {cs : List JaclVal} (hw : ViewOf h v (.heads tag count cs step)) (hcount : count ≤ cs.length)
    (hgrow : Grows put cs)
    (hput : ∀ c ∈ cs, ∀ e e' pos m, put e c pos = some e' → e'.err = none →
      Blank e pos e'.len m → ∃ m', Puts h n e e' c pos m m')
    (hlist : putList put (putLe { e with heads := e.heads ++ [pos] } pos tag.code 1) cs
      (cs.length * headSize) count (pos + 8) = some e')
    (he' : e'.err = none) (hb : Blank e pos e'.len m) :
    ∃ m', Puts h (n + 1) e e' v pos m m' := by
  have hhead : pos + 16 ≤ e.len := hb.head_le
  have hzero : ∀ i, pos ≤ i → i < pos + 16 → m i = 0#8 := hb.head_zero
  by_cases hcs : cs = []
  · subst hcs
    obtain rfl : count = 0 := Nat.le_zero.mp hcount
    have he : putLe { e with heads := e.heads ++ [pos] } pos tag.code 1 = e' := by
      simpa [putList, segment, putHeads] using hlist
    subst he
    refine ⟨Bytes.putLe m pos tag.code 1, ?_, hb.len_le, fun i h1 _ => ?_, ⟨_, hw,
      putLe_tag m pos tag, 0, ?_, ?_, by simp, by simp⟩, [], by simp [putLe], Nat.le_refl _, [pos],
      rfl, by simp⟩
    · simp [putLe, hb.buf]
    · rw [headSize] at h1
      exact putLe_of_outside (by omega)
    · refine le_zero fun i h1 h2 => ?_
      rw [putLe_of_outside (by omega)]
      exact hzero i (by omega) (by omega)
    · refine le_zero fun i h1 h2 => ?_
      rw [putLe_of_outside (by omega)]
      exact hzero i (by omega) (by omega)
  · have hpos : 0 < cs.length := List.length_pos_iff.mpr hcs
    obtain ⟨e₁, off, hseg⟩ : ∃ e₁ off, segment (putLe { e with heads := e.heads ++ [pos] } pos
        tag.code 1) (pos + 8) (cs.length * headSize) count = (e₁, off) := ⟨_, _, rfl⟩
    simp only [putList, hseg] at hlist
    have he₁ := putHeads_err hlist he'
    have hle₁ := putHeads_len hgrow hlist he'
    have hn : cs.length * headSize ≠ 0 := by rw [headSize]; omega
    obtain ⟨hoff, hlen₁, hmax, hheads, hsegs, hbuf₁⟩ := segment_spec hn hseg he₁
    have hal := le_align e.len
    have hoff' : e.len ≤ off := by
      rw [hoff]
      exact hal
    have hsize : cs.length ≤ cs.length * headSize := Nat.le_mul_of_pos_right _ (by decide)
    obtain ⟨htag, hslot, hcnt, hframe⟩ := slotted_spec m pos tag
      (show off < 2 ^ 32 by omega) (show count < 2 ^ 32 by omega)
    have hbuf : e₁.buf = some (slotted m pos tag off count) := by
      rw [hbuf₁]
      simp [putLe, hb.buf, slotted]
    obtain ⟨m', hbuf', hmax', hframe', henc, ss, hss, hpl, ps, hps, hin⟩ :=
      putHeads_spec hgrow hput hlist he' hbuf (by omega)
        (by omega) (fun i h1 h2 => by
          rw [hframe i (by rw [headSize]; omega)]
          exact hb.zero i (by omega) (by omega))
        (fun i h1 h2 => by
          rw [hframe i (by rw [headSize]; omega)]
          exact hb.zero i (by omega) h2)
    have hsame : SameOn (slotted m pos tag off count) m' pos (pos + 16) := fun i h1 h2 => hframe' i (by omega) (by omega)
    refine ⟨m', hbuf', hmax', fun i h1 h2 => ?_, ⟨_, hw, ?_, off, ?_, ?_, fun _ => ⟨hoff', by omega⟩,
      fun i c hc => ?_⟩, (off, cs.length * headSize) :: ss, ?_, ?_, pos :: ps, ?_, fun p hp => ?_⟩
    · rw [hframe' i (by omega) (by omega), hframe i h1]
    · rw [hsame pos (by omega) (by omega), htag]
    · rw [le_congr (hsame.mono (by omega) (by omega)), hslot]
    · rw [le_congr (hsame.mono (by omega) (by omega)), hcnt]
    · obtain ⟨lo, hi, h1, h2, h3⟩ := henc i c hc
      exact ⟨lo, hi, by omega, h2, h3⟩
    · rw [hss, hsegs]
      simp [putLe]
    · refine ⟨hoff', ?_, ?_⟩
      · rw [hoff, align]
        exact Nat.mul_mod_left _ 8
      · rw [← hlen₁]
        exact hpl
    · rw [hps, hheads]
      simp [putLe]
    · rcases List.mem_cons.mp hp with rfl | hp
      · exact .inl rfl
      · rcases hin p hp with ⟨h1, h2⟩ | ⟨s, hs, h1⟩
        · exact .inr ⟨_, List.mem_cons_self, h1, h2⟩
        · exact .inr ⟨s, List.mem_cons_of_mem _ hs, h1⟩

/-- **`jv_put`** into a blank frame. -/
theorem put_spec {h : Heap} {fuel : Nat} {e e' : JvEnc} {v : JaclVal} {pos depth : Nat}
    {m : Memory} (hput : put h fuel e v pos depth = some e') (he' : e'.err = none)
    (hwf : WellFormed h fuel v) (hb : Blank e pos e'.len m) :
    ∃ m', Puts h fuel e e' v pos m m' := by
  induction fuel generalizing e e' v pos depth m with
  | zero => cases hput
  | succ fuel ih =>
    obtain ⟨-, -, w, hw, hview⟩ := put_cases hput hb.no_error he' hwf
    have hhead : pos + 16 ≤ e.len := hb.head_le
    have hzero : ∀ i, pos ≤ i → i < pos + 16 → m i = 0#8 := hb.head_zero
    have hbuf := hb.buf
    cases w with
    | scalar tag x k =>
      have hk := hw.scalar_le
      -- nil writes nothing and is all zero
      have hnil : tag = .nil → k = 0 ∧ x = 0 := by
        rintro rfl
        cases hw
        exact ⟨rfl, rfl⟩
      by_cases htag : tag = .nil
      · obtain ⟨rfl, rfl⟩ := hnil htag
        subst htag
        rw [← Option.some.inj hview]
        refine ⟨m, hbuf, hb.len_le, fun i _ _ => rfl, ⟨_, hw, ?_⟩, [], by simp, Nat.le_refl _,
          [pos], rfl, by simp⟩
        exact ⟨by rw [hzero pos (by omega) (by omega)]; rfl, rfl⟩
      · have heq : some (putScalar { e with heads := e.heads ++ [pos] } pos tag x k) = some e' := by
          cases tag with
          | nil => exact absurd rfl htag
          | _ => exact hview
        rw [← Option.some.inj heq]
        refine ⟨Bytes.putLe (Bytes.putLe m pos tag.code 1) (pos + 8) x k, ?_, hb.len_le,
          fun i h1 h2 => ?_, ⟨_, hw, ?_, le_putLe⟩, [], by simp [putScalar, putLe], Nat.le_refl _,
          [pos], rfl, by simp⟩
        · simp [putScalar, putLe, hbuf]
        · rw [headSize] at h1
          rw [putLe_of_outside (by omega), putLe_of_outside (by omega)]
        · rw [putLe_of_outside (by omega), putLe_tag]
    | data tag s =>
      rw [← Option.some.inj hview] at he' hb ⊢
      exact putBytes_spec hw he' hb
    | heads tag count cs step =>
      have hgrow : Grows (fun e c p => put h fuel e c p (depth + step)) cs :=
        fun c hc e₁ e₂ p h1 h2 h3 => put_len h1 h2 h3 (hw.wellFormed hwf c hc)
      exact putList_spec hw (hw.count_le hwf) hgrow
        (fun c hc e₁ e₂ p m₁ h1 h2 h3 => ih h1 h2 (hw.wellFormed hwf c hc) h3) hview he' hb

/-! ### Sizing and writing -/

/-- The encoder without its buffer. -/
def JvEnc.erase (e : JvEnc) : JvEnc := { e with buf := none }

theorem putLe_erase (e : JvEnc) (pos x n : Nat) : putLe e.erase pos x n = (putLe e pos x n).erase := rfl

theorem segment_erase (e : JvEnc) (pos n count : Nat) :
    segment e.erase pos n count = ((segment e pos n count).1.erase, (segment e pos n count).2) := by
  rw [segment, segment]
  split <;> rfl

theorem putBytes_erase (e : JvEnc) (pos : Nat) (s : List (BitVec 8)) :
    putBytes e.erase pos s = (putBytes e pos s).erase := by
  simp only [putBytes, segment_erase]
  rfl

theorem putHeads_erase {put : JvEnc → JaclVal → Nat → Option JvEnc}
    (hput : ∀ e c pos, put e.erase c pos = (put e c pos).map JvEnc.erase) (e : JvEnc)
    (cs : List JaclVal) (off : Nat) :
    putHeads put e.erase cs off = (putHeads put e cs off).map JvEnc.erase := by
  induction cs generalizing e off with
  | nil => rfl
  | cons c cs ih =>
    rw [putHeads, putHeads]
    change (if e.err.isSome = true then _ else _) = _
    split
    · rfl
    · rw [hput]
      cases put e c off with
      | none => rfl
      | some e₁ => exact ih e₁ (off + headSize)

theorem putList_erase {put : JvEnc → JaclVal → Nat → Option JvEnc}
    (hput : ∀ e c pos, put e.erase c pos = (put e c pos).map JvEnc.erase) (e : JvEnc)
    (cs : List JaclVal) (n count pos : Nat) :
    putList put e.erase cs n count pos = (putList put e cs n count pos).map JvEnc.erase := by
  simp only [putList, segment_erase]
  exact putHeads_erase hput _ cs _

/-- **The encoder places everything as it does without a buffer.** -/
theorem put_erase (h : Heap) (fuel : Nat) (e : JvEnc) (v : JaclVal) (pos depth : Nat) :
    put h fuel e.erase v pos depth = (put h fuel e v pos depth).map JvEnc.erase := by
  induction fuel generalizing e v pos depth with
  | zero => rfl
  | succ fuel ih =>
    rw [put, put]
    by_cases he : e.err.isSome = true
    · rw [if_pos he, if_pos (show e.erase.err.isSome = true from he)]
      rfl
    rw [if_neg he, if_neg (show ¬ e.erase.err.isSome = true from he)]
    by_cases hdeep : maxDepth < depth ∨ (depth = maxDepth ∧ v ≠ nil)
    · rw [if_pos hdeep, if_pos hdeep]
      rfl
    rw [if_neg hdeep, if_neg hdeep]
    by_cases hflag : (v.tainted || v.secret) = true
    · rw [if_pos hflag, if_pos hflag]
      rfl
    rw [if_neg hflag, if_neg hflag]
    simp only
    by_cases hv : v.error = true
    · rw [if_pos hv, if_pos hv]
      have hseg := segment_erase (putLe { e with heads := e.heads ++ [pos] } pos Tag.error.code 1)
        (pos + 8) headSize 1
      change put h fuel (segment (JvEnc.erase (putLe { e with heads := e.heads ++ [pos] } pos
        Tag.error.code 1)) (pos + 8) headSize 1).1 _ (segment (JvEnc.erase (putLe
          { e with heads := e.heads ++ [pos] } pos Tag.error.code 1)) (pos + 8) headSize 1).2 _ = _
      rw [hseg]
      exact ih _ _ _ _
    rw [if_neg hv, if_neg hv]
    by_cases h0 : v.type = 0x00
    · rw [if_pos h0, if_pos h0]
      rfl
    rw [if_neg h0, if_neg h0]
    by_cases h1 : v.type = 0x01
    · rw [if_pos h1, if_pos h1]
      rfl
    rw [if_neg h1, if_neg h1]
    by_cases h2 : v.type = 0x02
    · rw [if_pos h2, if_pos h2]
      rfl
    rw [if_neg h2, if_neg h2]
    by_cases h3 : v.type = 0x03
    · rw [if_pos h3, if_pos h3]
      rfl
    rw [if_neg h3, if_neg h3]
    by_cases hE : v.type = 0x0E
    · rw [if_pos hE, if_pos hE]
      cases h.cells v.payload with
      | none => rfl
      | some o => cases o <;> rfl
    rw [if_neg hE, if_neg hE]
    by_cases h10 : v.type = 0x10
    · rw [if_pos h10, if_pos h10]
      cases h.cells v.payload with
      | none => rfl
      | some o => cases o <;> rfl
    rw [if_neg h10, if_neg h10]
    by_cases h9 : v.type = 0x09
    · rw [if_pos h9, if_pos h9]
      cases h.cells v.payload with
      | none => rfl
      | some o =>
        cases o with
        | big sign limb =>
          simp only
          cases bigToU64 sign limb <;> rfl
        | _ => rfl
    rw [if_neg h9, if_neg h9]
    by_cases h4 : v.type = 0x04
    · rw [if_pos h4, if_pos h4]
      exact congrArg some (putBytes_erase (putLe { e with heads := e.heads ++ [pos] } pos
        Tag.text.code 1) (pos + 8) _)
    rw [if_neg h4, if_neg h4]
    by_cases h5 : v.type = 0x05
    · rw [if_pos h5, if_pos h5]
      cases h.cells v.payload with
      | none => rfl
      | some o =>
        cases o with
        | str s =>
          exact congrArg some (putBytes_erase (putLe { e with heads := e.heads ++ [pos] } pos
            Tag.text.code 1) (pos + 8) s)
        | _ => rfl
    rw [if_neg h5, if_neg h5]
    by_cases h1E : v.type = 0x1E
    · rw [if_pos h1E, if_pos h1E]
      cases h.cells v.payload with
      | none => rfl
      | some o =>
        cases o with
        | fbuf nd code data =>
          simp only
          by_cases hcode : nd = 1 ∧ code ≤ 1
          · rw [if_pos hcode, if_pos hcode]
            exact congrArg some (putBytes_erase (putLe { e with heads := e.heads ++ [pos] } pos
              Tag.bytes.code 1) (pos + 8) data)
          · rw [if_neg hcode, if_neg hcode]
            rfl
        | _ => rfl
    rw [if_neg h1E, if_neg h1E]
    by_cases h6 : v.type = 0x06 ∨ v.type = 0x1B
    · rw [if_pos h6, if_pos h6]
      cases vecRoot h v with
      | none => rfl
      | some r =>
        exact putList_erase (fun e c pos => ih e c pos _) (putLe { e with heads := e.heads ++ [pos] }
          pos Tag.vec.code 1) _ _ _ _
    rw [if_neg h6, if_neg h6]
    by_cases h7 : v.type = 0x07
    · rw [if_pos h7, if_pos h7]
      cases mapRoot h v with
      | none => rfl
      | some t =>
        exact putList_erase (fun e c pos => ih e c pos _) (putLe { e with heads := e.heads ++ [pos] }
          pos Tag.map.code 1) _ _ _ _
    rw [if_neg h7, if_neg h7]
    rfl

/-- **What `jv_write` leaves in a buffer of `jv_size` zeroed bytes.** -/
theorem write_spec {h : Heap} {v : JaclVal} {n : Nat} {m : Memory} (hwf : WellFormed h putFuel v)
    (hsize : size h v = some (.ok n)) (hzero : ∀ i < n, m i = 0#8) :
    ∃ e m', write h v m = some e ∧ e.buf = some m' ∧ e.len = n ∧ (∀ i, n ≤ i → m' i = m i) ∧
      Enc h m' putFuel v 0 headSize n ∧ Placed headSize n e.segs ∧
      ∀ p ∈ e.heads, p = 0 ∨ ∃ s ∈ e.segs, s.1 ≤ p ∧ p + headSize ≤ s.1 + s.2 := by
  rw [size] at hsize
  obtain ⟨e₁, hput, herr⟩ := Option.bind_eq_some_iff.mp hsize
  have herr₁ : e₁.err = none ∧ e₁.len = n := by
    cases hcase : e₁.err with
    | some err => simp [hcase] at herr
    | none =>
      simp only [hcase, Option.some.injEq, Except.ok.injEq] at herr
      exact ⟨rfl, herr⟩
  have herase := put_erase h putFuel ⟨some m, headSize, none, [], []⟩ v 0 0
  rw [show JvEnc.erase ⟨some m, headSize, none, [], []⟩ = ⟨none, headSize, none, [], []⟩ from rfl,
    hput] at herase
  obtain ⟨e, hwrite, he⟩ := Option.map_eq_some_iff.mp herase.symm
  have herr' : e.err = none := by
    rw [← herr₁.1, ← he]
    rfl
  have hlen : e.len = n := by
    rw [← herr₁.2, ← he]
    rfl
  have hgrow := put_len hwrite rfl herr' hwf
  have hle : headSize ≤ n := hlen ▸ hgrow
  obtain ⟨m', hp⟩ := put_spec hwrite herr' hwf
    ⟨rfl, rfl, show headSize ≤ 0xFFFFFFFF by decide, Nat.le_refl _, fun i _ h2 => hzero i (by rw [headSize] at *; omega),
      fun i _ h2 => hzero i (by omega)⟩
  obtain ⟨ss, hss, hpl, ps, hps, hin⟩ := hp.segs
  have hsegs : e.segs = ss := by simpa using hss
  have hheads : e.heads = ps := by simpa using hps
  refine ⟨e, m', hwrite, hp.buf, hlen, fun i hi => ?_, hlen ▸ hp.enc, by rw [hsegs, ← hlen]; exact hpl,
    by rw [hheads, hsegs]; exact hin⟩
  refine hp.frame i (.inr ?_) (.inr (by omega))
  rw [headSize] at *
  omega

end Jacl.Wire
