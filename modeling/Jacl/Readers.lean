import Mathlib

/-!
# Readers of a buffer

A reader is at a position of a buffer and gives a value and the position after it, or stops:
because the bytes are malformed, because it read outside of the buffer, because its fuel was
spent, or because what it does with the bytes has no defined result.

Two things are said of readers.  `Gives p bs r`: wherever the bytes `bs` stand, `p` comes to `r`,
and if that is a value it is after them.  `Parses u f p P`: with at most `f` bytes left, `p` gives
a value that `P` relates to the bytes it took, or finds them malformed, or, of `u` bytes at least,
has no result; it does not read outside, and has fuel enough.  Both are put together along `>>=`.
-/

namespace Jacl.Readers

abbrev Byte : Type := BitVec 8

/-- Why a reader stops. -/
inductive Stop where
  | malformed
  | outside
  | spent
  | undefined
deriving DecidableEq, Repr

theorem bind_eq_ok {ε α β : Type} {x : Except ε α} {f : α → Except ε β} {b : β} :
    x >>= f = .ok b ↔ ∃ a, x = .ok a ∧ f a = .ok b := by
  cases x with
  | error e => exact ⟨nofun, fun ⟨_, h, _⟩ => nomatch h⟩
  | ok a => exact ⟨fun h => ⟨a, rfl, h⟩, fun ⟨_, h, hf⟩ => by cases h; exact hf⟩

def Reader (α : Type) : Type := List Byte → Nat → Except Stop (α × Nat)

variable {α β : Type}

protected def Reader.pure (a : α) : Reader α := fun _ pos => .ok (a, pos)

protected def Reader.bind (p : Reader α) (q : α → Reader β) : Reader β := fun buf pos =>
  match p buf pos with
  | .ok (a, pos) => q a buf pos
  | .error e => .error e

instance : Monad Reader where
  pure := Reader.pure
  bind := Reader.bind

/-! ### The readers -/

def stop (e : Stop) : Reader α := fun _ _ => .error e

/-- How many bytes are left. -/
def left : Reader Nat := fun buf pos => .ok (buf.length - pos, pos)

/-- The next byte, without a look at the length. -/
def byte : Reader Byte := fun buf pos =>
  match buf[pos]? with
  | some b => .ok (b, pos + 1)
  | none => .error .outside

def byteRun : Nat → Reader (List Byte)
  | 0 => pure []
  | n + 1 => do
    let b ← byte
    let bs ← byteRun n
    pure (b :: bs)

/-- There are `n` bytes more. -/
def need (n : Nat) : Reader Unit := fun buf pos =>
  if buf.length < pos + n then .error .malformed else .ok ((), pos)

/-- The next `n` bytes, if they are there. -/
def bytes (n : Nat) : Reader (List Byte) := do
  need n
  byteRun n

/-- The `n` low bytes of `x`, least significant first. -/
def leBytes : Nat → Nat → List Byte
  | 0, _ => []
  | n + 1, x => BitVec.ofNat 8 x :: leBytes n (x / 256)

/-- The number of a list of bytes, least significant first. -/
def leNat : List Byte → Nat
  | [] => 0
  | b :: bs => b.toNat + 256 * leNat bs

/-- A little-endian word of `n` bytes. -/
def word (n : Nat) : Reader (BitVec (8 * n)) := do
  let bs ← bytes n
  pure (BitVec.ofNat (8 * n) (leNat bs))

/-- `n` things, one after the other. -/
def several (p : Reader α) : Nat → Reader (List α)
  | 0 => pure []
  | n + 1 => do
    let a ← p
    let as ← several p n
    pure (a :: as)

@[simp] theorem length_leBytes (n x : Nat) : (leBytes n x).length = n := by
  induction n generalizing x with
  | zero => rfl
  | succ n ih => simp [leBytes, ih]

theorem leNat_leBytes (n x : Nat) : leNat (leBytes n x) = x % 256 ^ n := by
  induction n generalizing x with
  | zero => simp [leBytes, leNat, Nat.mod_one]
  | succ n ih =>
    have hpow : 256 ^ (n + 1) = 256 * 256 ^ n := by rw [Nat.pow_succ, Nat.mul_comm]
    rw [leBytes, leNat, ih, BitVec.toNat_ofNat, hpow, Nat.mod_mul]

theorem leNat_lt (bs : List Byte) : leNat bs < 256 ^ bs.length := by
  induction bs with
  | nil => simp [leNat]
  | cons b bs ih =>
    have hb := b.isLt
    rw [leNat, List.length_cons, Nat.pow_succ]
    omega

/-! ### Reading back -/

/-- The list `bs` stands at `pos`. -/
structure At (buf : List α) (pos : Nat) (bs : List α) : Prop where
  le : pos + bs.length ≤ buf.length
  starts : bs <+: buf.drop pos

theorem At.left {buf : List α} {pos : Nat} {bs cs : List α} (h : At buf pos (bs ++ cs)) :
    At buf pos bs where
  le := by
    have := h.le
    rw [List.length_append] at this
    omega
  starts := (List.prefix_append bs cs).trans h.starts

theorem At.right {buf : List α} {pos : Nat} {bs cs : List α} (h : At buf pos (bs ++ cs)) :
    At buf (pos + bs.length) cs where
  le := by
    have := h.le
    rw [List.length_append] at this
    omega
  starts := by
    obtain ⟨more, hm⟩ := h.starts
    refine ⟨more, ?_⟩
    rw [← List.drop_drop, ← hm, List.append_assoc, List.drop_left]

theorem At.head {buf : List α} {pos : Nat} {b : α} {bs : List α} (h : At buf pos (b :: bs)) :
    buf[pos]? = some b := by
  obtain ⟨more, hm⟩ := h.starts
  have h0 : (buf.drop pos)[0]? = some b := by rw [← hm]; rfl
  rwa [List.getElem?_drop, Nat.add_zero] at h0

theorem At.suffix (as bs : List α) : At (as ++ bs) as.length bs where
  le := Nat.le_of_eq List.length_append.symm
  starts := ⟨[], by rw [List.append_nil, List.drop_left]⟩

theorem At.append {buf : List α} {pos : Nat} {bs cs : List α} (h : At buf pos bs)
    (h' : At buf (pos + bs.length) cs) : At buf pos (bs ++ cs) where
  le := by
    have := h'.le
    rw [List.length_append]
    omega
  starts := by
    obtain ⟨more, hm⟩ := h.starts
    obtain ⟨rest, hr⟩ := h'.starts
    refine ⟨rest, ?_⟩
    rw [← List.drop_drop, ← hm, List.drop_left] at hr
    rw [List.append_assoc, hr, hm]

/-- Wherever `bs` stands, `p` comes to `r`, after `bs` if it goes on. -/
def Gives (p : Reader α) (bs : List Byte) (r : Except Stop α) : Prop :=
  ∀ buf pos, At buf pos bs → p buf pos = r.map fun a => (a, pos + bs.length)

theorem Gives.pure (a : α) : Gives (pure a) [] (.ok a) := fun _ _ _ => rfl

theorem Gives.stop (e : Stop) : Gives (stop e : Reader α) [] (.error e) := fun _ _ _ => rfl

theorem Gives.bind {p : Reader α} {q : α → Reader β} {bs cs : List Byte} {r : Except Stop α}
    {t : α → Except Stop β} (hp : Gives p bs r) (hq : ∀ a, r = .ok a → Gives (q a) cs (t a)) :
    Gives (p >>= q) (bs ++ cs) (r >>= t) := by
  intro buf pos h
  have hb : (p >>= q) buf pos = Reader.bind p q buf pos := rfl
  rw [hb, Reader.bind, hp buf pos h.left]
  cases r with
  | error e => rfl
  | ok a =>
    have hr := hq a rfl buf (pos + bs.length) h.right
    rw [Nat.add_assoc, ← List.length_append] at hr
    exact hr

/-- What goes on is followed by what is next. -/
theorem Gives.andThen {p : Reader α} {q : α → Reader β} {bs cs : List Byte} {a : α}
    {r : Except Stop β} (hp : Gives p bs (.ok a)) (hq : Gives (q a) cs r) :
    Gives (p >>= q) (bs ++ cs) r :=
  hp.bind (t := fun _ => r) fun _ h => by cases h; exact hq

/-- The last step takes nothing. -/
theorem Gives.map {p : Reader α} {bs : List Byte} {r : Except Stop α} (hp : Gives p bs r)
    (f : α → β) : Gives (p >>= fun a => Pure.pure (f a)) bs (r >>= fun a => .ok (f a)) := by
  have h := hp.bind (q := fun a => Pure.pure (f a)) (t := fun a => .ok (f a))
    fun a _ => .pure (f a)
  rwa [List.append_nil] at h

theorem Gives.mapTo {p : Reader α} {bs : List Byte} {r : Except Stop α} (hp : Gives p bs r)
    {f g : α → β} (hfg : ∀ a, f a = g a) :
    Gives (p >>= fun a => Pure.pure (f a)) bs (r >>= fun a => .ok (g a)) := by
  obtain rfl : f = g := funext hfg
  exact hp.map f

theorem Gives.left {q : Nat → Reader β} {bs : List Byte} {r : Except Stop β}
    (hq : ∀ k, bs.length ≤ k → Gives (q k) bs r) : Gives (left >>= q) bs r := by
  intro buf pos h
  have := h.le
  exact hq (buf.length - pos) (by omega) buf pos h

theorem Gives.byte (b : Byte) : Gives byte [b] (.ok b) := by
  intro buf pos h
  simp only [Readers.byte, h.head]
  rfl

theorem Gives.byteRun (bs : List Byte) : Gives (byteRun bs.length) bs (.ok bs) := by
  induction bs with
  | nil => exact .pure []
  | cons b bs ih =>
    have hrest : Gives (Readers.byteRun bs.length >>= fun cs => Pure.pure (b :: cs)) bs
        (.ok (b :: bs)) := ih.map (b :: ·)
    exact (Gives.byte b).andThen hrest

theorem Gives.bytes {bs : List Byte} {n : Nat} (hn : bs.length = n) :
    Gives (bytes n) bs (.ok bs) := by
  subst hn
  intro buf pos h
  have hle := h.le
  change Reader.bind (need bs.length) (fun _ => Readers.byteRun bs.length) buf pos = _
  rw [Reader.bind, need, if_neg (by omega)]
  exact Gives.byteRun bs buf pos h

theorem Gives.word {n : Nat} (v : BitVec (8 * n)) :
    Gives (word n) (leBytes n v.toNat) (.ok v) := by
  have hval : BitVec.ofNat (8 * n) (leNat (leBytes n v.toNat)) = v := by
    have hlt : v.toNat < 256 ^ n := by
      have := v.isLt
      rwa [Nat.pow_mul] at this
    rw [leNat_leBytes, Nat.mod_eq_of_lt hlt, BitVec.ofNat_toNat, BitVec.setWidth_eq]
  have h := (Gives.bytes (length_leBytes n v.toNat)).map (BitVec.ofNat (8 * n) <| leNat ·)
  change Gives _ _ (.ok (BitVec.ofNat (8 * n) (leNat (leBytes n v.toNat)))) at h
  rwa [hval] at h

/-! ### Parsing -/

/-- With at most `f` bytes left, `p` gives a value that `P` relates to the bytes it took, or
finds them malformed, or has no result, which takes `u` bytes at least. -/
def Parses (u f : Nat) (p : Reader α) (P : List Byte → α → Prop) : Prop :=
  ∀ buf pos, pos ≤ buf.length → buf.length - pos ≤ f →
    p buf pos = .error .malformed ∨
    (p buf pos = .error .undefined ∧ u ≤ buf.length - pos) ∨
    ∃ a bs, p buf pos = .ok (a, pos + bs.length) ∧ At buf pos bs ∧ P bs a

variable {u v f g : Nat} {p : Reader α} {q : α → Reader β}
  {P : List Byte → α → Prop} {Q : List Byte → β → Prop}

theorem Parses.pure {a : α} (h : P [] a) : Parses u f (pure a) P :=
  fun _ _ hp _ => .inr (.inr ⟨a, [], rfl, ⟨hp, List.nil_prefix⟩, h⟩)

theorem Parses.malformed : Parses u f (stop .malformed) P := fun _ _ _ _ => .inl rfl

theorem Parses.undefined : Parses 0 f (stop .undefined) P :=
  fun _ _ _ _ => .inr (.inl ⟨rfl, Nat.zero_le _⟩)

theorem Parses.mono (h : Parses u f p P) (hv : v ≤ u) (hg : g ≤ f) : Parses v g p P := by
  intro buf pos hp hl
  obtain he | ⟨he, hu⟩ | he := h buf pos hp (by omega)
  · exact .inl he
  · exact .inr (.inl ⟨he, by omega⟩)
  · exact .inr (.inr he)

theorem Parses.imp {P' : List Byte → α → Prop} (h : Parses u f p P)
    (himp : ∀ bs a, bs.length ≤ f → P bs a → P' bs a) : Parses u f p P' := by
  intro buf pos hp hl
  obtain he | he | ⟨a, bs, he, hat, ha⟩ := h buf pos hp hl
  · exact .inl he
  · exact .inr (.inl he)
  · have := hat.le
    exact .inr (.inr ⟨a, bs, he, hat, himp bs a (by omega) ha⟩)

/-- What is read first leaves less to what follows. -/
theorem Parses.bind (hp : Parses u f p P)
    (hq : ∀ bs a, bs.length ≤ f → P bs a →
      Parses (u - bs.length) (f - bs.length) (q a) fun cs b => Q (bs ++ cs) b) :
    Parses u f (p >>= q) Q := by
  intro buf pos hpos hl
  have hb : (p >>= q) buf pos = Reader.bind p q buf pos := rfl
  rw [hb, Reader.bind]
  obtain he | ⟨he, hu⟩ | ⟨a, bs, he, hat, ha⟩ := hp buf pos hpos hl
  · rw [he]
    exact .inl rfl
  · rw [he]
    exact .inr (.inl ⟨rfl, hu⟩)
  · have hle := hat.le
    simp only [he]
    obtain he' | ⟨he', hu⟩ | ⟨b, cs, he', hat', hb⟩ :=
      hq bs a (by omega) ha buf (pos + bs.length) hle (by omega)
    · exact .inl he'
    · exact .inr (.inl ⟨he', by omega⟩)
    · exact .inr (.inr ⟨b, bs ++ cs, by rw [he', List.length_append, Nat.add_assoc],
        hat.append hat', hb⟩)

theorem Parses.left {q : Nat → Reader β} (hq : ∀ k, Parses u f (q k) Q) :
    Parses u f (left >>= q) Q :=
  fun buf pos hpos hl => hq (buf.length - pos) buf pos hpos hl

/-- A run of bytes that are there. -/
theorem byteRun_ok {buf : List Byte} {n pos : Nat} (h : pos + n ≤ buf.length) :
    byteRun n buf pos = .ok ((buf.drop pos).take n, pos + n) := by
  have hlen : ((buf.drop pos).take n).length = n := by
    rw [List.length_take, List.length_drop]
    omega
  have hr := Gives.byteRun _ buf pos ⟨by rw [hlen]; exact h, List.take_prefix n _⟩
  rwa [hlen] at hr

theorem Parses.bytes (n : Nat) : Parses u f (bytes n) fun bs a => bs = a ∧ a.length = n := by
  intro buf pos hpos hl
  have hb : Readers.bytes n buf pos = Reader.bind (need n) (fun _ => byteRun n) buf pos := rfl
  rw [hb, Reader.bind, Readers.need]
  by_cases h : buf.length < pos + n
  · rw [if_pos h]
    exact .inl rfl
  · rw [if_neg h]
    have hlen : ((buf.drop pos).take n).length = n := by
      rw [List.length_take, List.length_drop]
      omega
    refine .inr (.inr ⟨(buf.drop pos).take n, (buf.drop pos).take n, ?_,
      ⟨by rw [hlen]; omega, List.take_prefix _ _⟩, rfl, hlen⟩)
    simp only
    rw [byteRun_ok (by omega), hlen]

theorem Parses.word (n : Nat) :
    Parses u f (word n) fun bs v => bs.length = n ∧ v.toNat = leNat bs := by
  refine (Parses.bytes n).bind fun bs a _ ha => .pure ?_
  obtain ⟨rfl, hn⟩ := ha
  have hlt := leNat_lt bs
  rw [hn] at hlt
  rw [List.append_nil, BitVec.toNat_ofNat, Nat.mod_eq_of_lt (by rwa [Nat.pow_mul])]
  exact ⟨hn, rfl⟩

/-- A list of things, each of which takes bytes that `P` relates to it. -/
inductive AllParsed (P : List Byte → α → Prop) : List Byte → List α → Prop
  | nil : AllParsed P [] []
  | cons {bs cs : List Byte} {a : α} {as : List α} : P bs a → AllParsed P cs as →
      AllParsed P (bs ++ cs) (a :: as)

theorem Parses.several (hp : Parses u f p P) (n : Nat) :
    Parses u f (several p n) fun bs as => AllParsed P bs as ∧ as.length = n := by
  induction n generalizing u f with
  | zero => exact .pure ⟨.nil, rfl⟩
  | succ n ih =>
    refine hp.bind fun bs a _ ha => ?_
    refine (ih (hp.mono (Nat.sub_le _ bs.length) (Nat.sub_le _ bs.length))).bind
      fun cs as _ hs => .pure ?_
    rw [List.append_nil]
    exact ⟨.cons ha hs.1, by rw [List.length_cons, hs.2]⟩

/-- A reader with fuel enough does not read outside, and does not run out of it. -/
theorem Parses.result (h : Parses u f p P) {buf : List Byte} (hl : buf.length ≤ f) :
    p buf 0 = .error .malformed ∨ (p buf 0 = .error .undefined ∧ u ≤ buf.length) ∨
    ∃ a bs, p buf 0 = .ok (a, bs.length) ∧ bs <+: buf ∧ P bs a := by
  obtain he | he | ⟨a, bs, he, hat, ha⟩ := h buf 0 (Nat.zero_le _) (by omega)
  · exact .inl he
  · exact .inr (.inl he)
  · have hs := hat.starts
    rw [Nat.zero_add] at he
    exact .inr (.inr ⟨a, bs, he, hs, ha⟩)

end Jacl.Readers
