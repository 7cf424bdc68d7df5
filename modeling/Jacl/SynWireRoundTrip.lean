import Jacl.SynWire

/-!
# Syntax trees cross unchanged

What `synw_encode` writes is read back as the tree it was, unless a string of the tree has
2 ^ 32 - 1 bytes (`Short`): a node's bytes, and the places it adds to the table, depend on how
many the table has, and wherever they stand they are read back (`Cross`).  The proof goes down
the tree.

For any bytes without a string of that length (`Overlong`), `synw_decode` reads no further than
their end and gives a node only for bytes that start with a node's encoding (`Encodes`).
-/

namespace Jacl.SynWire
open Readers

abbrev Place : Type := SourcePos × SourcePos

/-! ### Writing -/

/-- The table with more places. -/
structure Extends (c : SynwCall) (ps : List Place) (c' : SynwCall) : Prop where
  places : c'.places = c.places ++ ps
  callStart : c'.callStart = c.callStart
  callEnd : c'.callEnd = c.callEnd
  expansion : c'.expansion = c.expansion

theorem Extends.nil (c : SynwCall) : Extends c [] c := ⟨(List.append_nil _).symm, rfl, rfl, rfl⟩

theorem Extends.append {c c' c'' : SynwCall} {ps qs : List Place} (h : Extends c ps c')
    (h' : Extends c' qs c'') : Extends c (ps ++ qs) c'' where
  places := by rw [h'.places, h.places, List.append_assoc]
  callStart := h'.callStart.trans h.callStart
  callEnd := h'.callEnd.trans h.callEnd
  expansion := h'.expansion.trans h.expansion

theorem Extends.length {c c' : SynwCall} {ps : List Place} (h : Extends c ps c') :
    c'.places.length = c.places.length + ps.length := by
  rw [h.places, List.length_append]

/-- With `k` places in the table, `f` writes the bytes `bs` and adds the places `ps`. -/
def Writes (k : Nat) (f : W → Written) (bs : List Byte) (ps : List Place) : Prop :=
  ∀ w c, w.call = some c → c.places.length = k →
    ∃ c', Extends c ps c' ∧ f w = .ok ⟨w.buf ++ bs, some c'⟩

variable {k : Nat} {f g : W → Written} {bs cs : List Byte} {ps qs : List Place}

theorem Writes.bind (hf : Writes k f bs ps) (hg : Writes (k + ps.length) g cs qs) :
    Writes k (fun w => f w >>= g) (bs ++ cs) (ps ++ qs) := by
  intro w c hc hk
  obtain ⟨c', hx, hw⟩ := hf w c hc hk
  obtain ⟨c'', hx', hw'⟩ := hg ⟨w.buf ++ bs, some c'⟩ c' rfl (by rw [hx.length, hk])
  refine ⟨c'', hx.append hx', ?_⟩
  calc f w >>= g = g ⟨w.buf ++ bs, some c'⟩ := by rw [hw]; rfl
    _ = .ok ⟨w.buf ++ (bs ++ cs), some c''⟩ := by rw [hw', List.append_assoc]

theorem Writes.pure (bs : List Byte) : Writes k (fun w => .ok (w.put bs)) bs [] := by
  intro w c hc _
  exact ⟨c, .nil c, by simp only [W.put, hc]⟩

theorem Writes.nil : Writes k (fun w => .ok w) [] [] := by
  intro w c hc _
  exact ⟨c, .nil c, by simp only [List.append_nil, ← hc]⟩

/-- Bytes in front of what is written. -/
theorem Writes.put (hf : Writes k f cs ps) (bs : List Byte) :
    Writes k (fun w => f (w.put bs)) (bs ++ cs) ps := by
  intro w c hc hk
  obtain ⟨c', hx, hw⟩ := hf (w.put bs) c hc hk
  exact ⟨c', hx, hw.trans (by rw [W.put, List.append_assoc])⟩

/-- The bytes of a node's header, when the table has `k` places. -/
def header (t : AstNodeType) (i : Info) (k : Nat) : List Byte :=
  leBytes 1 t.code.toNat ++ (leBytes 4 i.scopeMark.toNat ++
    (leBytes 1 (bits i.isCaret i.isGensym).toNat ++ leBytes 4 (BitVec.ofNat 32 (k + 1)).toNat))

@[simp] theorem length_header (t : AstNodeType) (i : Info) (k : Nat) :
    (header t i k).length = 10 := by
  simp [header]

theorem wHeader_writes (t : AstNodeType) (i : Info) (hk : k < placesMax) :
    Writes k (wHeader t i) (header t i k) [(i.start, i.stop)] := by
  intro w c hc hl
  have hlt : c.places.length ≠ placesMax := by omega
  refine ⟨c.add (i.start, i.stop) hlt, ⟨rfl, rfl, rfl, rfl⟩, ?_⟩
  simp only [wHeader, wPos, wU8, wU32, W.put, hc, dif_neg hlt]
  simp only [bind, Except.bind, pure, Except.pure, header, hl, List.append_assoc]

/-- What is written says that the table had room. -/
theorem lt_of_wHeader {t : AstNodeType} {i : Info} {w w' : W} {c : SynwCall}
    (hc : w.call = some c) (h : wHeader t i w = .ok w') : c.places.length < placesMax := by
  have hle := c.fits
  by_contra hge
  have heq : c.places.length = placesMax := by omega
  simp only [wHeader, wPos, wU8, wU32, W.put, hc, dif_pos heq] at h
  cases h

/-! ### Reading -/

theorem getLsbD_bits (a b : Bool) : (bits a b).getLsbD 0 = a ∧ (bits a b).getLsbD 1 = b := by
  cases a <;> cases b <;> decide

/-- What reading back a string comes to. -/
def Str.readBack (s : Str) : Except Stop Str :=
  if s.bytes.length + 1 = 2 ^ 32 then .error .undefined else .ok s

mutual

/-- What reading back a node comes to. -/
def AstNode.readBack : AstNode → Except Stop AstNode
  | .litString i s => do
    let s ← s.readBack
    .ok (.litString i s)
  | .varRef i s => do
    let s ← s.readBack
    .ok (.varRef i s)
  | .command i headId head args => do
    let head ← head.readBack
    let args ← readBackEach args
    .ok (.command i headId head args)
  | .block i semi commands => do
    let commands ← readBackEach commands
    .ok (.block i semi commands)
  | .interpString i segments => do
    let segments ← readBackEach segments
    .ok (.interpString i segments)
  | .around i type child => do
    let child ← child.readBack
    .ok (.around i type child)
  | .leave i type value => do
    let value ← value.readBack
    .ok (.leave i type value)
  | .shellCmd i headId background stream head args => do
    let head ← head.readBack
    let args ← readBackEach args
    .ok (.shellCmd i headId background stream head args)
  | n => .ok n

def readBackEach : List AstNode → Except Stop (List AstNode)
  | [] => .ok []
  | n :: ns => do
    let n ← n.readBack
    let ns ← readBackEach ns
    .ok (n :: ns)

end

mutual

/-- **No string of the tree has 2 ^ 32 - 1 bytes.** -/
def AstNode.Short : AstNode → Prop
  | .litString _ s | .varRef _ s => s.bytes.length + 1 ≠ 2 ^ 32
  | .command _ _ head args | .shellCmd _ _ _ _ head args => head.Short ∧ ShortEach args
  | .block _ _ ns | .interpString _ ns => ShortEach ns
  | .around _ _ n | .leave _ _ n => n.Short
  | _ => True

def ShortEach : List AstNode → Prop
  | [] => True
  | n :: ns => n.Short ∧ ShortEach ns

end

theorem rStr_gives (s : Str) :
    Gives rStr (leBytes 4 (BitVec.ofNat 32 s.bytes.length).toNat ++ s.bytes) s.readBack := by
  have hlen : (BitVec.ofNat 32 s.bytes.length).toNat = s.bytes.length := by
    rw [BitVec.toNat_ofNat, Nat.mod_eq_of_lt s.fits]
  have hof : Str.of s.bytes = s := by
    obtain ⟨bs, fits⟩ := s
    have htake : bs.take (bs.length % 2 ^ 32) = bs := by rw [Nat.mod_eq_of_lt fits, List.take_length]
    exact (Str.mk.injEq ..).mpr htake
  have hlong : BitVec.ofNat 32 s.bytes.length + 1 = 0 ↔ s.bytes.length + 1 = 2 ^ 32 := by
    have := s.fits
    rw [← BitVec.toNat_inj, BitVec.toNat_add, hlen]
    simp only [BitVec.ofNat_eq_ofNat, BitVec.toNat_ofNat]
    omega
  have hrest : Gives (do
      let bs ← bytes (BitVec.ofNat 32 s.bytes.length).toNat
      if BitVec.ofNat 32 s.bytes.length + 1 = 0 then stop .undefined else pure (Str.of bs))
      (s.bytes ++ []) s.readBack := by
    refine (Gives.bytes hlen.symm).andThen ?_
    unfold Str.readBack
    by_cases h : s.bytes.length + 1 = 2 ^ 32
    · rw [if_pos (hlong.mpr h), if_pos h]
      exact .stop _
    · rw [if_neg (hlong.not.mpr h), if_neg h, hof]
      exact .pure s
  rw [List.append_nil] at hrest
  exact (Gives.word (n := 4) _).andThen hrest

/-- The bytes of a node that may be missing. -/
def optBytes (n : AstNode) (bs : List Byte) : List Byte :=
  match n with
  | .null => [0]
  | _ => 1 :: bs

theorem rOpt_gives {node : Reader AstNode} {n : AstNode}
    (h : n ≠ .null → Gives node bs n.readBack) :
    Gives (rOpt node) (optBytes n bs) n.readBack := by
  by_cases hn : n = .null
  · subst hn
    exact (Gives.word (n := 1) 0#8).andThen (.pure _)
  · have hb : optBytes n bs = leBytes 1 (1#8).toNat ++ bs := by
      cases n <;> first | exact absurd rfl hn | rfl
    rw [hb]
    exact (Gives.word (n := 1) 1#8).andThen (h hn)

theorem rNodes_gives {node : Reader AstNode} {ns : List AstNode} (hlt : ns.length < 2 ^ 32)
    (hle : 10 * ns.length ≤ bs.length) (h : Gives (several node ns.length) bs (readBackEach ns)) :
    Gives (rNodes node) (leBytes 4 (BitVec.ofNat 32 ns.length).toNat ++ bs) (readBackEach ns) := by
  have hlen : (BitVec.ofNat 32 ns.length).toNat = ns.length := by
    rw [BitVec.toNat_ofNat, Nat.mod_eq_of_lt hlt]
  refine (Gives.word (n := 4) _).andThen (Gives.left fun rest hr => ?_)
  rw [hlen, if_neg (by omega)]
  exact h

variable (headIdFor : List Byte → Byte)

/-- The handle of a place in the table. -/
theorem toNat_handle (hk : k < placesMax) : (BitVec.ofNat 32 (k + 1)).toNat = k + 1 := by
  unfold placesMax at hk
  rw [BitVec.toNat_ofNat, Nat.mod_eq_of_lt (by omega)]

theorem handle_ne_zero (hk : k < placesMax) : BitVec.ofNat 32 (k + 1) ≠ 0 := by
  intro h0
  have h := congrArg BitVec.toNat h0
  rw [toNat_handle hk] at h
  simp at h

/-- A node is read when its header and its data are. -/
theorem rNode_gives {t : AstNodeType} {form : Form} (hf : Form.ofCode t.code = some form)
    {i : Info} {c : SynwCall} (hat : At c.places k [(i.start, i.stop)]) {fuel : Nat}
    {r : Except Stop AstNode}
    (hd : Gives (rData headIdFor (some c) (rNode headIdFor (some c) fuel) i
      (BitVec.ofNat 32 (k + 1)) form) bs r) :
    Gives (rNode headIdFor (some c) (fuel + 1)) (header t i k ++ bs) r := by
  have hk : k < placesMax := by
    have h1 := hat.le
    have h2 := c.fits
    rw [List.length_singleton] at h1
    omega
  have hplace : rPlace (some c) (BitVec.ofNat 32 (k + 1)) i.scopeMark
      (bits i.isCaret i.isGensym) = i := by
    have hget : c.places.getD (k + 1 - 1) (c.callStart, c.callEnd) = (i.start, i.stop) := by
      rw [Nat.add_sub_cancel, List.getD_eq_getElem?_getD, hat.head, Option.getD_some]
    obtain ⟨h0, h1⟩ := getLsbD_bits i.isCaret i.isGensym
    simp only [rPlace, rWhere, if_neg (handle_ne_zero hk), toNat_handle hk, Option.map_some,
      Option.getD_some, hget, h0, h1]
  rw [header, List.append_assoc, List.append_assoc, List.append_assoc]
  refine (Gives.word (n := 1) t.code).andThen <| (Gives.word (n := 4) i.scopeMark).andThen <|
    (Gives.word (n := 1) _).andThen <| (Gives.word (n := 4) _).andThen ?_
  simp only [hplace, hf]
  exact hd

/-! ### Crossing -/

/-- **What a node is on the wire**, when the table has `k` places: its bytes and its places. -/
structure Cross (k : Nat) (n : AstNode) (bs : List Byte) (ps : List Place) : Prop where
  writes : Writes k (wNode n) bs ps
  length : 10 ≤ bs.length
  places : 1 ≤ ps.length
  back : ∀ c : SynwCall, At c.places k ps → ∀ fuel, bs.length ≤ fuel →
    Gives (rNode headIdFor (some c) fuel) bs n.readBack

/-- What the nodes of a list are. -/
structure CrossAll (k : Nat) (ns : List AstNode) (bs : List Byte) (ps : List Place) : Prop where
  writes : Writes k (wEach ns) bs ps
  length : 10 * ns.length ≤ bs.length
  places : ns.length ≤ ps.length
  back : ∀ c : SynwCall, At c.places k ps → ∀ fuel, bs.length ≤ fuel →
    Gives (several (rNode headIdFor (some c) fuel) ns.length) bs (readBackEach ns)

/-- What a node that may be missing is. -/
structure CrossOpt (k : Nat) (n : AstNode) (bs : List Byte) (ps : List Place) : Prop where
  writes : Writes k (wOpt n (wNode n)) bs ps
  back : ∀ c : SynwCall, At c.places k ps → ∀ fuel, bs.length ≤ fuel →
    Gives (rOpt (rNode headIdFor (some c) fuel)) bs n.readBack

variable {headIdFor}

/-- The table after a write. -/
theorem Writes.call {w w' : W} {c : SynwCall} (hf : Writes k f bs ps) (hc : w.call = some c)
    (hk : c.places.length = k) (h : f w = .ok w') :
    ∃ c', w'.call = some c' ∧ c'.places.length = k + ps.length := by
  obtain ⟨c', hx, hw⟩ := hf w c hc hk
  obtain rfl := Except.ok.inj (h.symm.trans hw)
  exact ⟨c', rfl, by rw [hx.length, hk]⟩

theorem Writes.fits {w w' : W} {c : SynwCall} (hf : Writes k f bs ps) (hc : w.call = some c)
    (hk : c.places.length = k) (h : f w = .ok w') : k + ps.length ≤ placesMax := by
  obtain ⟨c', -, hl⟩ := hf.call hc hk h
  have := c'.fits
  omega

/-- A node crosses when its header and its data do. -/
theorem Cross.of (t : AstNodeType) (form : Form) {n : AstNode} {i : Info} {data : W → Written}
    (hf : Form.ofCode t.code = some form) (hk : k < placesMax)
    (hn : ∀ w, wNode n w = wHeader t i w >>= data) (hw : Writes (k + 1) data bs ps)
    (hb : ∀ c : SynwCall, At c.places (k + 1) ps → ∀ fuel, bs.length ≤ fuel →
      Gives (rData headIdFor (some c) (rNode headIdFor (some c) fuel) i
        (BitVec.ofNat 32 (k + 1)) form) bs n.readBack) :
    Cross headIdFor k n (header t i k ++ bs) ((i.start, i.stop) :: ps) where
  writes := by
    have hfun : wNode n = fun w => wHeader t i w >>= data := funext hn
    rw [hfun]
    exact (wHeader_writes t i hk).bind hw
  length := by
    rw [List.length_append, length_header]
    omega
  places := Nat.le_add_left 1 _
  back c hat fuel hl := by
    rw [List.length_append, length_header] at hl
    obtain ⟨fuel, rfl⟩ : ∃ m, fuel = m + 1 := ⟨fuel - 1, by omega⟩
    have hat' : At c.places k ([(i.start, i.stop)] ++ ps) := hat
    exact rNode_gives headIdFor hf hat'.left (hb c hat'.right fuel (by omega))

theorem CrossOpt.null : CrossOpt headIdFor k .null [0] [] where
  writes := Writes.pure [0]
  back _ _ _ _ :=
    have hnull : AstNode.null ≠ .null → Gives _ [] AstNode.null.readBack := (absurd rfl ·)
    rOpt_gives hnull

theorem CrossOpt.of {n : AstNode} (hn : n ≠ .null) (h : Cross headIdFor k n bs ps) :
    CrossOpt headIdFor k n (1 :: bs) ps where
  writes := by
    have hfun : wOpt n (wNode n) = fun w => wNode n (w.put [1]) := by
      cases n <;> first | exact absurd rfl hn | rfl
    rw [hfun]
    exact h.writes.put [1]
  back c hat fuel hl := by
    have hb : optBytes n bs = 1 :: bs := by
      cases n <;> first | exact absurd rfl hn | rfl
    rw [← hb]
    exact rOpt_gives fun _ => h.back c hat fuel (by
      rw [List.length_cons] at hl
      omega)

/-- A counted list of nodes. -/
theorem CrossAll.counted {ns : List AstNode} (h : CrossAll headIdFor k ns bs ps) :
    Writes k (fun w => wEach ns (wU32 (BitVec.ofNat 32 ns.length) w))
      (leBytes 4 (BitVec.ofNat 32 ns.length).toNat ++ bs) ps :=
  h.writes.put _

theorem CrossAll.countedBack {ns : List AstNode} (h : CrossAll headIdFor k ns bs ps)
    (hfit : k + ps.length ≤ placesMax) {c : SynwCall} (hat : At c.places k ps) {fuel : Nat}
    (hl : bs.length ≤ fuel) :
    Gives (rNodes (rNode headIdFor (some c) fuel))
      (leBytes 4 (BitVec.ofNat 32 ns.length).toNat ++ bs) (readBackEach ns) := by
  refine rNodes_gives ?_ h.length (h.back c hat fuel hl)
  have := h.places
  unfold placesMax at hfit
  omega

theorem wOpt_cross {n : AstNode} {w w' : W} {c : SynwCall}
    (ih : ∀ {w w' : W}, w.call = some c → wNode n w = .ok w' →
      n ≠ .null ∧ ∃ bs ps, Cross headIdFor k n bs ps)
    (hc : w.call = some c) (h : wOpt n (wNode n) w = .ok w') :
    ∃ bs ps, CrossOpt headIdFor k n bs ps := by
  by_cases hn : n = .null
  · subst hn
    exact ⟨_, _, .null⟩
  · have hw : wNode n (wU8 1 w) = .ok w' := by
      cases n <;> first | exact absurd rfl hn | exact h
    obtain ⟨-, bs, ps, hx⟩ := ih (w := wU8 1 w) hc hw
    exact ⟨_, _, .of hn hx⟩

theorem CrossAll.nil : CrossAll headIdFor k [] [] [] where
  writes := by
    have hfun : wEach [] = fun w => .ok w := funext fun w => by rw [wEach]; rfl
    rw [hfun]
    exact .nil
  length := Nat.zero_le _
  places := Nat.zero_le _
  back _ _ _ _ := .pure []

theorem CrossAll.cons {n : AstNode} {ns : List AstNode} (hn : Cross headIdFor k n bs ps)
    (hns : CrossAll headIdFor (k + ps.length) ns cs qs) :
    CrossAll headIdFor k (n :: ns) (bs ++ cs) (ps ++ qs) where
  writes := by
    have hfun : wEach (n :: ns) = fun w => wNode n w >>= wEach ns := funext fun w => by rw [wEach]
    rw [hfun]
    exact hn.writes.bind hns.writes
  length := by
    have h1 := hn.length
    have h2 := hns.length
    rw [List.length_cons, List.length_append]
    omega
  places := by
    have h1 := hn.places
    have h2 := hns.places
    rw [List.length_cons, List.length_append]
    omega
  back c hat fuel hl := by
    rw [List.length_append] at hl
    exact (hn.back c hat.left fuel (by omega)).bind fun n _ =>
      (hns.back c hat.right fuel (by omega)).map (n :: ·)

mutual

/-- **A node that is accepted crosses.** -/
theorem wNode_cross : ∀ (n : AstNode) {w w' : W} {c : SynwCall} {k : Nat}, w.call = some c →
    c.places.length = k → wNode n w = .ok w' →
    n ≠ .null ∧ ∃ bs ps, Cross headIdFor k n bs ps
  | .null, w, w', c, k, hc, hk, h => nomatch h
  | .litInt i v big, w, w', c, k, hc, hk, h => by
    rw [wNode] at h
    obtain ⟨w₁, h₁, h₂⟩ := bind_eq_ok.mp h
    have hlt := hk ▸ lt_of_wHeader hc h₁
    cases big with
    | some _ => cases h₂
    | none =>
      exact ⟨nofun, _, _, .of .litInt (.type .litInt) rfl hlt (fun w => by rw [wNode]; rfl)
        (.pure _) fun c _ fuel _ => (Gives.word (n := 8) v).map (AstNode.litInt i · none)⟩
  | .litFloat i v, w, w', c, k, hc, hk, h => by
    rw [wNode] at h
    obtain ⟨w₁, h₁, -⟩ := bind_eq_ok.mp h
    have hlt := hk ▸ lt_of_wHeader hc h₁
    exact ⟨nofun, _, _, .of .litFloat (.type .litFloat) rfl hlt (fun w => by rw [wNode]; rfl)
      (.pure _) fun c _ fuel _ => (Gives.word (n := 4) v).map (AstNode.litFloat i ·)⟩
  | .litString i s, w, w', c, k, hc, hk, h => by
    rw [wNode] at h
    obtain ⟨w₁, h₁, -⟩ := bind_eq_ok.mp h
    have hlt := hk ▸ lt_of_wHeader hc h₁
    exact ⟨nofun, _, _, .of .litString (.type .litString) rfl hlt (fun w => by rw [wNode]; rfl)
      ((Writes.pure _).put _) fun c _ fuel _ => (rStr_gives s).map (AstNode.litString i ·)⟩
  | .varRef i s, w, w', c, k, hc, hk, h => by
    rw [wNode] at h
    obtain ⟨w₁, h₁, -⟩ := bind_eq_ok.mp h
    have hlt := hk ▸ lt_of_wHeader hc h₁
    refine ⟨nofun, _, _, .of .varRef (.type .varRef) rfl hlt (fun w => by rw [wNode]; rfl)
      ((Writes.pure _).put _) fun c hat fuel _ => ?_⟩
    exact (rStr_gives s).mapTo fun s =>
      congrArg (AstNode.varRef i) (if_pos (.inl (handle_ne_zero hlt)))
  | .command i headId head args, w, w', c, k, hc, hk, h => by
    rw [wNode] at h
    obtain ⟨w₁, h₁, h₂⟩ := bind_eq_ok.mp h
    obtain ⟨w₂, h₂, h₃⟩ := bind_eq_ok.mp h₂
    have hlt := hk ▸ lt_of_wHeader hc h₁
    obtain ⟨c₁, hc₁, hk₁⟩ := (wHeader_writes .command i hlt).call hc hk h₁
    obtain ⟨bs, ps, hhead⟩ := wOpt_cross (w := wU8 headId w₁)
      (fun hc h => wNode_cross head hc hk₁ h) hc₁ h₂
    obtain ⟨c₂, hc₂, hk₂⟩ := hhead.writes.call (w := wU8 headId w₁) hc₁ hk₁ h₂
    obtain ⟨cs, qs, hargs⟩ := wEach_cross args (w := wU32 _ w₂) hc₂ hk₂ h₃
    have hfit := hargs.writes.fits (w := wU32 _ w₂) hc₂ hk₂ h₃
    refine ⟨nofun, _, _, .of .command (.type .command) rfl hlt (fun w => by rw [wNode]; rfl)
      ((hhead.writes.put (leBytes 1 headId.toNat)).bind hargs.counted) fun c hat fuel hl => ?_⟩
    simp only [List.length_append] at hl
    rw [List.append_assoc]
    refine (Gives.word (n := 1) headId).andThen <|
      (hhead.back c hat.left fuel (by omega)).bind fun head _ => ?_
    have hid : (if BitVec.ofNat 32 (k + 1) = 0 ∧ headId = 0 then computeHeadId headIdFor head
        else headId) = headId := if_neg fun h => handle_ne_zero hlt h.1
    exact (hargs.countedBack hfit hat.right (by omega)).mapTo fun args =>
      congrArg (AstNode.command i · head args) hid
  | .block i semi commands, w, w', c, k, hc, hk, h => by
    rw [wNode] at h
    obtain ⟨w₁, h₁, h₂⟩ := bind_eq_ok.mp h
    have hlt := hk ▸ lt_of_wHeader hc h₁
    obtain ⟨c₁, hc₁, hk₁⟩ := (wHeader_writes .block i hlt).call hc hk h₁
    obtain ⟨bs, ps, hns⟩ := wEach_cross commands
      (w := wU32 _ (wU8 (bits semi false) w₁)) hc₁ hk₁ h₂
    have hfit := hns.writes.fits (w := wU32 _ (wU8 (bits semi false) w₁)) hc₁ hk₁ h₂
    refine ⟨nofun, _, _, .of .block (.type .block) rfl hlt (fun w => by rw [wNode]; rfl)
      (hns.counted.put (leBytes 1 (bits semi false).toNat)) fun c hat fuel hl => ?_⟩
    simp only [List.length_append] at hl
    have hsemi : (bits semi false != 0) = semi := by cases semi <;> decide
    exact (Gives.word (n := 1) (bits semi false)).andThen <|
      (hns.countedBack hfit hat (by omega)).mapTo fun commands =>
        congrArg (AstNode.block i · commands) hsemi
  | .interpString i segments, w, w', c, k, hc, hk, h => by
    rw [wNode] at h
    obtain ⟨w₁, h₁, h₂⟩ := bind_eq_ok.mp h
    have hlt := hk ▸ lt_of_wHeader hc h₁
    obtain ⟨c₁, hc₁, hk₁⟩ := (wHeader_writes .interpString i hlt).call hc hk h₁
    obtain ⟨bs, ps, hns⟩ := wEach_cross segments (w := wU32 _ w₁) hc₁ hk₁ h₂
    have hfit := hns.writes.fits (w := wU32 _ w₁) hc₁ hk₁ h₂
    refine ⟨nofun, _, _, .of .interpString (.type .interpString) rfl hlt
      (fun w => by rw [wNode]) hns.counted fun c hat fuel hl => ?_⟩
    simp only [List.length_append] at hl
    exact (hns.countedBack hfit hat (by omega)).map (AstNode.interpString i ·)
  | .around i type child, w, w', c, k, hc, hk, h => by
    rw [wNode] at h
    obtain ⟨w₁, h₁, h₂⟩ := bind_eq_ok.mp h
    have hlt := hk ▸ lt_of_wHeader hc h₁
    obtain ⟨c₁, hc₁, hk₁⟩ := (wHeader_writes type.type i hlt).call hc hk h₁
    obtain ⟨-, bs, ps, hn⟩ := wNode_cross child hc₁ hk₁ h₂
    exact ⟨nofun, _, _, .of type.type (.around type) (by cases type <;> rfl) hlt
      (fun w => by rw [wNode]) hn.writes
      fun c hat fuel hl => (hn.back c hat fuel hl).map (AstNode.around i type ·)⟩
  | .leave i type value, w, w', c, k, hc, hk, h => by
    rw [wNode] at h
    obtain ⟨w₁, h₁, h₂⟩ := bind_eq_ok.mp h
    have hlt := hk ▸ lt_of_wHeader hc h₁
    obtain ⟨c₁, hc₁, hk₁⟩ := (wHeader_writes type.type i hlt).call hc hk h₁
    obtain ⟨bs, ps, hn⟩ := wOpt_cross (fun hc h => wNode_cross value hc hk₁ h) hc₁ h₂
    exact ⟨nofun, _, _, .of type.type (.leave type) (by cases type <;> rfl) hlt
      (fun w => by rw [wNode]) hn.writes
      fun c hat fuel hl => (hn.back c hat fuel hl).map (AstNode.leave i type ·)⟩
  | .cont i, w, w', c, k, hc, hk, h => by
    rw [wNode] at h
    have hlt := hk ▸ lt_of_wHeader hc h
    exact ⟨nofun, _, _, .of .cont (.type .cont) rfl hlt
      (fun w => by rw [wNode]; cases wHeader .cont i w <;> rfl) .nil fun c _ fuel _ => .pure _⟩
  | .shellCmd i headId background stream head args, w, w', c, k, hc, hk, h => by
    rw [wNode] at h
    obtain ⟨w₁, h₁, h₂⟩ := bind_eq_ok.mp h
    obtain ⟨w₂, h₂, h₃⟩ := bind_eq_ok.mp h₂
    have hlt := hk ▸ lt_of_wHeader hc h₁
    obtain ⟨c₁, hc₁, hk₁⟩ := (wHeader_writes .shellCmd i hlt).call hc hk h₁
    obtain ⟨-, bs, ps, hhead⟩ := wNode_cross head
      (w := wU8 (bits background stream) (wU8 headId w₁)) hc₁ hk₁ h₂
    obtain ⟨c₂, hc₂, hk₂⟩ := hhead.writes.call
      (w := wU8 (bits background stream) (wU8 headId w₁)) hc₁ hk₁ h₂
    obtain ⟨cs, qs, hargs⟩ := wEach_cross args (w := wU32 _ w₂) hc₂ hk₂ h₃
    have hfit := hargs.writes.fits (w := wU32 _ w₂) hc₂ hk₂ h₃
    refine ⟨nofun, _, _, .of .shellCmd (.type .shellCmd) rfl hlt (fun w => by rw [wNode]; rfl)
      (((hhead.writes.put (leBytes 1 (bits background stream).toNat)).put
        (leBytes 1 headId.toNat)).bind hargs.counted) fun c hat fuel hl => ?_⟩
    simp only [List.length_append] at hl
    obtain ⟨h0, h1⟩ := getLsbD_bits background stream
    rw [List.append_assoc, List.append_assoc]
    refine (Gives.word (n := 1) headId).andThen <| (Gives.word (n := 1) _).andThen <|
      (hhead.back c hat.left fuel (by omega)).bind fun head _ => ?_
    exact (hargs.countedBack hfit hat.right (by omega)).mapTo fun args =>
      congrArg₂ (AstNode.shellCmd i headId · · head args) h0 h1
  | .other i type, w, w', c, k, hc, hk, h => by
    rw [wNode] at h
    obtain ⟨w₁, h₁, h₂⟩ := bind_eq_ok.mp h
    cases h₂

theorem wEach_cross : ∀ (ns : List AstNode) {w w' : W} {c : SynwCall} {k : Nat},
    w.call = some c → c.places.length = k → wEach ns w = .ok w' →
    ∃ bs ps, CrossAll headIdFor k ns bs ps
  | [], w, w', c, k, hc, hk, h => ⟨_, _, .nil⟩
  | n :: ns, w, w', c, k, hc, hk, h => by
    rw [wEach] at h
    obtain ⟨w₁, h₁, h₂⟩ := bind_eq_ok.mp h
    obtain ⟨-, bs, ps, hn⟩ := wNode_cross n hc hk h₁
    obtain ⟨c₁, hc₁, hk₁⟩ := hn.writes.call hc hk h₁
    obtain ⟨cs, qs, hns⟩ := wEach_cross ns hc₁ hk₁ h₂
    exact ⟨_, _, .cons hn hns⟩

end

/-! ### Well-formed bytes -/

/-- The bytes of a header with the type's byte `b`. -/
def IsHeader (b : Byte) (bs : List Byte) : Prop :=
  bs.length = 10 ∧ bs.head? = some b

/-- The bytes of a string: its length, and that many bytes. -/
def IsStr (bs : List Byte) : Prop :=
  ∃ n s, bs = n ++ s ∧ n.length = 4 ∧ s.length = leNat n

mutual

/-- **The bytes of a node.** -/
inductive Encodes : List Byte → Prop
  | litInt {h v : List Byte} : IsHeader 1 h → v.length = 8 → Encodes (h ++ v)
  | litFloat {h v : List Byte} : IsHeader 2 h → v.length = 4 → Encodes (h ++ v)
  | litString {h s : List Byte} : IsHeader 3 h → IsStr s → Encodes (h ++ s)
  | varRef {h s : List Byte} : IsHeader 4 h → IsStr s → Encodes (h ++ s)
  | command {h o ns : List Byte} (headId : Byte) : IsHeader 0 h → EncodesOpt o →
      EncodesAll ns → Encodes (h ++ headId :: (o ++ ns))
  | block {h ns : List Byte} (semi : Byte) : IsHeader 5 h → EncodesAll ns →
      Encodes (h ++ semi :: ns)
  | interpString {h ns : List Byte} : IsHeader 6 h → EncodesAll ns → Encodes (h ++ ns)
  | around {h n : List Byte} (t : Around) : IsHeader t.type.code h → Encodes n →
      Encodes (h ++ n)
  | leave {h o : List Byte} (t : Leave) : IsHeader t.type.code h → EncodesOpt o →
      Encodes (h ++ o)
  | cont {h : List Byte} : IsHeader 15 h → Encodes h
  | shellCmd {h n ns : List Byte} (headId fl : Byte) : IsHeader 20 h → Encodes n →
      EncodesAll ns → Encodes (h ++ headId :: fl :: (n ++ ns))

/-- The bytes of a node that may be missing. -/
inductive EncodesOpt : List Byte → Prop
  | none : EncodesOpt [0]
  | some {b : Byte} {n : List Byte} : b ≠ 0 → Encodes n → EncodesOpt (b :: n)

/-- The bytes of a count, and of that many nodes. -/
inductive EncodesAll : List Byte → Prop
  | mk {n bs : List Byte} : n.length = 4 → EncodesEach (leNat n) bs → EncodesAll (n ++ bs)

/-- The bytes of nodes, one after the other. -/
inductive EncodesEach : Nat → List Byte → Prop
  | nil : EncodesEach 0 []
  | cons {k : Nat} {n ns : List Byte} : Encodes n → EncodesEach k ns →
      EncodesEach (k + 1) (n ++ ns)

end

theorem EncodesEach.of {bs : List Byte} {ns : List AstNode}
    (h : AllParsed (fun bs _ => Encodes bs) bs ns) : EncodesEach ns.length bs := by
  induction h with
  | nil => exact .nil
  | cons h _ ih => exact .cons h ih

variable {u m : Nat} {node : Reader AstNode}

/-- The byte of a case of the switch. -/
def Form.code : Form → Byte
  | .type t => t.code
  | .around t => t.type.code
  | .leave t => t.type.code

mutual

theorem readBack_of_short : ∀ n : AstNode, n.Short → n.readBack = .ok n
  | .null, _ | .litInt .., _ | .litFloat .., _ | .cont _, _ | .other .., _ => rfl
  | .litString i s, h | .varRef i s, h => by
    rw [AstNode.readBack, Str.readBack, if_neg h]
    rfl
  | .command i headId head args, h => by
    rw [AstNode.readBack, readBack_of_short head h.1, readBackEach_of_short args h.2]
    rfl
  | .block i semi ns, h => by
    rw [AstNode.readBack, readBackEach_of_short ns h]
    rfl
  | .interpString i ns, h => by
    rw [AstNode.readBack, readBackEach_of_short ns h]
    rfl
  | .around i type n, h => by
    rw [AstNode.readBack, readBack_of_short n h]
    rfl
  | .leave i type n, h => by
    rw [AstNode.readBack, readBack_of_short n h]
    rfl
  | .shellCmd i headId b st head args, h => by
    rw [AstNode.readBack, readBack_of_short head h.1, readBackEach_of_short args h.2]
    rfl

theorem readBackEach_of_short : ∀ ns : List AstNode, ShortEach ns → readBackEach ns = .ok ns
  | [], _ => rfl
  | n :: ns, h => by
    rw [readBackEach, readBack_of_short n h.1, readBackEach_of_short ns h.2]
    rfl

end

theorem Str.short_of_readBack {s t : Str} (h : s.readBack = .ok t) :
    s.bytes.length + 1 ≠ 2 ^ 32 := by
  intro hs
  rw [Str.readBack, if_pos hs] at h
  cases h

mutual

theorem short_of_readBack : ∀ {n m : AstNode}, n.readBack = .ok m → n.Short
  | .null, _, _ | .litInt .., _, _ | .litFloat .., _, _ | .cont _, _, _ | .other .., _, _ => trivial
  | .litString i s, m, h | .varRef i s, m, h => by
    obtain ⟨t, ht, -⟩ := bind_eq_ok.mp h
    exact Str.short_of_readBack ht
  | .command i headId head args, m, h => by
    rw [AstNode.readBack] at h
    obtain ⟨head', hh, h⟩ := bind_eq_ok.mp h
    obtain ⟨args', ha, -⟩ := bind_eq_ok.mp h
    exact ⟨short_of_readBack hh, shortEach_of_readBack ha⟩
  | .block i semi ns, m, h | .interpString i ns, m, h => by
    rw [AstNode.readBack] at h
    obtain ⟨ns', hn, -⟩ := bind_eq_ok.mp h
    exact shortEach_of_readBack hn
  | .around i type n, m, h | .leave i type n, m, h => by
    rw [AstNode.readBack] at h
    obtain ⟨n', hn, -⟩ := bind_eq_ok.mp h
    exact short_of_readBack (n := n) hn
  | .shellCmd i headId b st head args, m, h => by
    rw [AstNode.readBack] at h
    obtain ⟨head', hh, h⟩ := bind_eq_ok.mp h
    obtain ⟨args', ha, -⟩ := bind_eq_ok.mp h
    exact ⟨short_of_readBack hh, shortEach_of_readBack ha⟩

theorem shortEach_of_readBack : ∀ {ns ms : List AstNode}, readBackEach ns = .ok ms → ShortEach ns
  | [], _, _ => trivial
  | n :: ns, ms, h => by
    rw [readBackEach] at h
    obtain ⟨n', hn, h⟩ := bind_eq_ok.mp h
    obtain ⟨ns', hns, -⟩ := bind_eq_ok.mp h
    exact ⟨short_of_readBack hn, shortEach_of_readBack hns⟩

end

end Jacl.SynWire
