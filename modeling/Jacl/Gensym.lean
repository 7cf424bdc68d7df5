import Jacl.SynWire
import Jacl.Macros

/-!
# Fresh names (`macro_staging/syn_rt.c`, `syn_wire.c`)

A macro's body makes a name with `gensym`: its prefix and the number that the runtime's counter has
(`synrt_gensym_node`).  The host counts the expansions (`synw_call_begin`), and when the macro's
result comes back it puts the expansion's number after each name that this expansion made: a
variable reference that is marked as a gensym and has no place on the argument wire, since what
came in as an argument has one (`r_name_gensym`).

Of a tree only its variable references matter here; a node of another kind is what it says of
itself and its children (`Tree`).  What a macro's body makes of its arguments is any tree whose
references are those of its arguments, those it got from `gensym`, those of its templates, and
others that it put together itself (`Expansion.Has`).  Where a reference is from is kept beside it.
-/

namespace Jacl.Gensym
open Readers SynWire Macros

/-! ### Trees -/

/-- Where a variable reference is from: the source, call `k` of `gensym` in an expansion, or
neither. -/
inductive Origin where
  | written
  | minted (expansion k : Nat)
  | made
deriving DecidableEq

/-- A variable reference. -/
structure Ref where
  name : Str
  isGensym : Bool
  origin : Origin

/-- A node: a variable reference, or one of another kind with its children. -/
inductive Tree (ρ : Type) where
  | ref (r : ρ)
  | node (data : List Byte) (kids : List (Tree ρ))

variable {ρ σ : Type}

mutual

/-- The variable references in a tree. -/
def Tree.refs : Tree ρ → List ρ
  | .ref r => [r]
  | .node _ kids => refsAll kids

def refsAll : List (Tree ρ) → List ρ
  | [] => []
  | t :: ts => t.refs ++ refsAll ts

end

mutual

def Tree.map (f : ρ → σ) : Tree ρ → Tree σ
  | .ref r => .ref (f r)
  | .node data kids => .node data (mapAll f kids)

def mapAll (f : ρ → σ) : List (Tree ρ) → List (Tree σ)
  | [] => []
  | t :: ts => t.map f :: mapAll f ts

end

/-- In a tree, `b` takes the place of `a`. -/
inductive Replaces (a b : Tree ρ) : Tree ρ → Tree ρ → Prop
  | here : Replaces a b a b
  | kid {data : List Byte} {pre post : List (Tree ρ)} {t t' : Tree ρ} : Replaces a b t t' →
      Replaces a b (.node data (pre ++ t :: post)) (.node data (pre ++ t' :: post))

/-! ### Names -/

/-- The name of `synrt_gensym_node`: no prefix is `g`, and of a prefix at most 64 bytes count. -/
def synrtGensymNode (pre : Option (List Byte)) (n : BitVec 32) : Str :=
  let p := (pre.getD []).take 64
  Str.of ((if p = [] then text "g" else p) ++ text "__" ++ decimal n.toNat)

/-- A variable reference on the wire, with its position handle. -/
structure Wired where
  handle : BitVec 32
  ref : Ref

/-- What `r_node` makes of a variable reference, in an expansion. -/
def rVarRef (c : SynwCall) (w : Wired) : Ref :=
  { w.ref with name := rNameGensym (some c) ⟨0, 0, 0, false, w.ref.isGensym⟩ w.handle w.ref.name }

/-! ### Expansions -/

/-- An expansion: its call's subtree, the arguments, the names that the macro's templates write,
the value of the runtime's counter, and the prefixes that the body calls `gensym` with. -/
structure Expansion where
  call : Tree Ref
  args : List (Tree Ref)
  templates : List Str
  start : Nat
  prefixes : List (Option (List Byte))

/-- What the body's call `k` of `gensym` gives in expansion `i`, counted from 0. -/
def Expansion.mint (x : Expansion) (i k : Nat) (pre : Option (List Byte)) : Wired :=
  ⟨0, ⟨synrtGensymNode pre (BitVec.ofNat 32 (x.start + k)), true, .minted i k⟩⟩

/-- The references that the macro's result may have. -/
inductive Expansion.Has (x : Expansion) (i : Nat) : Wired → Prop
  | arg {h : BitVec 32} {r : Ref} : r ∈ refsAll x.args → h ≠ 0 → x.Has i ⟨h, r⟩
  | mint {k : Nat} {pre : Option (List Byte)} : x.prefixes[k]? = some pre →
      x.Has i (x.mint i k pre)
  | template {name : Str} : name ∈ x.templates → x.Has i ⟨0, ⟨name, false, .written⟩⟩
  | made (h : BitVec 32) (name : Str) (g : Bool) : x.Has i ⟨h, ⟨name, g, .made⟩⟩

/-- A session: its trees as they are expanded so far, the names its source wrote, and its
expansions. -/
structure State where
  trees : List (Tree Ref)
  source : List Str
  expansions : List Expansion

def init : State := ⟨[], [], []⟩

/-- `synw_call_begin`: the next expansion has the next number, from 1. -/
def State.callBegin (s : State) : SynwCall :=
  synwCallBegin 0 0 (BitVec.ofNat 32 (s.expansions.length + 1))

/-- The references of a line, as it is parsed. -/
def lineRef (name : Str) : Ref := ⟨name, false, .written⟩

/-- What happens in a step: a line is read, a call is expanded, or its expansion fails. -/
inductive Event where
  | line (ts : List (Tree Str))
  | expand (x : Expansion)
  | fail (x : Expansion)

/-- **A step** of a session.  A line that fails is dropped, with what it came to. -/
inductive Step : State → Event → State → Prop
  | line {s : State} (ts : List (Tree Str)) :
      Step s (.line ts) { s with
        trees := s.trees ++ mapAll lineRef ts, source := s.source ++ refsAll ts }
  | expand {s : State} {pre post : List (Tree Ref)} {t t' : Tree Ref} {v : Tree Wired}
      (x : Expansion) : s.trees = pre ++ t :: post →
      (∀ r ∈ refsAll x.args, r ∈ x.call.refs) →
      (∀ w ∈ v.refs, x.Has s.expansions.length w) →
      Replaces x.call (v.map (rVarRef s.callBegin)) t t' →
      Step s (.expand x)
        ⟨pre ++ t' :: post, s.source ++ x.templates, s.expansions ++ [x]⟩
  | fail {s : State} {ts : List (Tree Ref)} (x : Expansion) : ts.Sublist s.trees →
      Step s (.fail x) ⟨ts, s.source ++ x.templates, s.expansions ++ [x]⟩

end Jacl.Gensym
