import Mathlib

/-!
# Tables that fill up

A table that a name is added to at the end, if it is not in it and there is room (`addTo`), and
the entry of a list that was added last under a name (`lastNamed`).
-/

namespace Jacl.Tables

variable {α β : Type} [DecidableEq α]

/-! ### Names -/

variable {cap : Nat} {xs ns : List α} {n : α}

/-- The last of a list that has the name. -/
def lastNamed (name : β → α) (xs : List β) (n : α) : Option β :=
  xs.reverse.find? fun x => name x = n

variable {name : β → α} {as bs : List β}

end Jacl.Tables
