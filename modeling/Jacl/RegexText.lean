import Jacl.RegexExec

/-!
# The search over a text

Up to the first empty chunk, it makes no difference to a search how its text comes in chunks.
-/

namespace Jacl.Regex

variable {p : Program} {cur : Cursor} {pending : List Thread} {best : Option Found}

/-- What is left of the text: a chunk of no bytes ends it. -/
def Cursor.text (cur : Cursor) : List Byte :=
  cur.chunk ++ (cur.later.takeWhile (· != [])).flatten

/-- Where a search ends: what has been found, what of the text it has not gone past, and where. -/
structure Ended where
  best : Option Found
  rest : List Byte
  sp : Nat
  prev : Option Byte

def skips (p : Program) (pending : List Thread) (best : Option Found) (b : Byte) : Bool :=
  pending.isEmpty && best.isNone && !p.canMatchEmpty && !p.firstByteSet b

/-- The search, over a text. -/
def searchText (p : Program) :
    List Byte → Nat → Option Byte → List Thread → Option Found → Ended
  | [], sp, prev, pending, best =>
    ⟨scan p sp (expand p (contextAt prev none) sp pending best) best, [], sp, prev⟩
  | b :: rest, sp, prev, pending, best =>
    if skips p pending best b then searchText p rest (sp + 1) (some b) pending best
    else
      let threads := expand p (contextAt prev (some b)) sp pending best
      let best := scan p sp threads best
      let pending := consume p.code b threads
      if best.isSome && pending.isEmpty then ⟨best, b :: rest, sp, prev⟩
      else searchText p rest (sp + 1) (some b) pending best

/-! ### Chunks -/

/-- No chunk of those to come is empty. -/
def Cursor.Solid (cur : Cursor) : Prop := ∀ chunk ∈ cur.later, chunk ≠ []

/-- What a step to the next byte that is looked at keeps. -/
structure Settled (p : Program) (pending : List Thread) (best : Option Found) (cur : Cursor)
    (r : Cursor × Bool) : Prop where
  same : searchText p cur.text cur.sp cur.prev pending best =
    searchText p (if r.2 then [] else r.1.text) r.1.sp r.1.prev pending best
  chunk : r.2 = false → r.1.chunk ≠ []
  length : r.1.text.length ≤ cur.text.length ∨ r.2 = true
  solid : cur.Solid → r.1.Solid ∧ (r.2 = true → r.1.text = [])

end Jacl.Regex
