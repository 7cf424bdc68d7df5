import Mathlib.Data.List.Nodup
import Mathlib.Logic.Function.Basic

/-!
# Lists threaded through one link field

Nodes carry one link each, and several lists share it: a list is where it starts, and
its links.  A list that ends never meets a node twice (`Chain.nodup`), and lists without a
node in common do not disturb each other (`Chain.congr`).  The operations are the ones
intrusive lists have: put a node in front, cut one out whose predecessor is known, and
search for the link that leads to a node.
-/

namespace Jacl.LinkLists

variable {N : Type} {next next' : N → Option N} {start : Option N} {l l' pre post : List N} {x j : N}

/-- **The links from `start` run through `l`** and end. -/
def Chain (next : N → Option N) : Option N → List N → Prop
  | start, [] => start = none
  | start, x :: l => start = some x ∧ Chain next (next x) l

theorem Chain.head (h : Chain next start l) : start = l.head? := by
  cases l with
  | nil => exact h
  | cons x l => exact h.1

/-- The links determine the list. -/
theorem Chain.unique (h : Chain next start l) (h' : Chain next start l') : l = l' := by
  induction l generalizing start l' with
  | nil =>
    cases l' with
    | nil => rfl
    | cons y l' =>
      rw [h.head] at h'
      cases h'.1
  | cons x l ih =>
    obtain ⟨rfl, h⟩ := h
    cases l' with
    | nil => cases h'
    | cons y l' =>
      obtain ⟨hxy, h'⟩ := h'
      obtain rfl := Option.some.inj hxy
      rw [ih h h']

/-- Only the links of its nodes matter to a list. -/
theorem Chain.congr (h : Chain next start l) (hn : ∀ x ∈ l, next' x = next x) :
    Chain next' start l := by
  induction l generalizing start with
  | nil => exact h
  | cons x l ih =>
    obtain ⟨hs, h⟩ := h
    refine ⟨hs, ?_⟩
    rw [hn x List.mem_cons_self]
    exact ih h fun y hy => hn y (List.mem_cons_of_mem _ hy)

/-- The links from a node of the list run through what comes after it. -/
theorem Chain.after (h : Chain next start (pre ++ x :: post)) : Chain next (next x) post := by
  induction pre generalizing start with
  | nil => exact h.2
  | cons y pre ih => exact ih h.2

/-- **A list that ends is acyclic.** -/
theorem Chain.nodup (h : Chain next start l) : l.Nodup := by
  induction l generalizing start with
  | nil => exact List.nodup_nil
  | cons x l ih =>
    refine List.nodup_cons.mpr ⟨fun hx => ?_, ih h.2⟩
    -- what follows `x` the second time would be what follows it the first time
    obtain ⟨pre, post, rfl⟩ := List.append_of_mem hx
    have hpost : post = pre ++ x :: post := (Chain.after h.2).unique h.2
    have hlen := congrArg List.length hpost
    rw [List.length_append, List.length_cons] at hlen
    omega

/-! ### In front -/

/-- A node put in front of a list it is not on. -/
theorem Chain.push [DecidableEq N] (h : Chain next start l) (hx : x ∉ l) :
    Chain (Function.update next x start) (some x) (x :: l) := by
  refine ⟨rfl, ?_⟩
  rw [Function.update_self]
  refine h.congr fun y hy => Function.update_of_ne ?_ _ _
  rintro rfl
  exact hx hy

/-! ### Cutting a node out -/

/-- The start of a list and the links after the link `link` (`none` is the start, `some p`
the link of `p`) is set to `dest`. -/
def setLink [DecidableEq N] (start : Option N) (next : N → Option N) (link dest : Option N) :
    Option N × (N → Option N) :=
  match link with
  | none => (dest, next)
  | some p => (start, Function.update next p dest)

/-- The node `j` is cut out: the link that leads to it goes to `dest`, its own to nothing. -/
def cut [DecidableEq N] (start : Option N) (next : N → Option N) (link dest : Option N) (j : N) :
    Option N × (N → Option N) :=
  ((setLink start next link dest).1, Function.update (setLink start next link dest).2 j none)

theorem cut_next [DecidableEq N] {link dest : Option N} (hx : x ≠ j) (hp : link ≠ some x) :
    (cut start next link dest j).2 x = next x := by
  rw [cut]
  simp only [Function.update_of_ne hx]
  cases link with
  | none => rfl
  | some p => exact Function.update_of_ne (fun h => hp (by rw [h])) _ _

theorem Chain.cut [DecidableEq N] (h : Chain next start (pre ++ j :: post)) :
    Chain (cut start next pre.getLast? post.head? j).2
      (cut start next pre.getLast? post.head? j).1 (pre ++ post) := by
  have hnd := h.nodup
  have hpost : Chain next post.head? post := by
    have := h.after
    rwa [this.head] at this
  have hjpost : ∀ x ∈ post, x ≠ j := by
    rintro x hx rfl
    exact (List.nodup_cons.mp (List.nodup_append.mp hnd).2.1).1 hx
  cases pre with
  | nil =>
    refine hpost.congr fun x hx => ?_
    exact cut_next (hjpost x hx) (by simp)
  | cons y pre =>
    obtain ⟨last, hlast⟩ : ∃ p, (y :: pre).getLast? = some p :=
      ⟨_, List.getLast?_eq_getLast_of_ne_nil (List.cons_ne_nil y pre)⟩
    obtain ⟨front, hfront⟩ : ∃ front, y :: pre = front ++ [last] :=
      ⟨_, (List.dropLast_append_getLast? last hlast).symm⟩
    have hstart : (LinkLists.cut start next (y :: pre).getLast? post.head? j).1 = start := by
      rw [hlast]
      rfl
    rw [hstart, hlast]
    rw [hfront] at h hnd ⊢
    -- up to the last node before `j` nothing changes
    have hlast' : ∀ x ∈ front, x ≠ last ∧ x ≠ j := by
      intro x hx
      have hnd' : (front ++ ([last] ++ j :: post)).Nodup := by rwa [List.append_assoc] at hnd
      have hdis := (List.nodup_append.mp hnd').2.2 x hx
      exact ⟨hdis last (by simp), hdis j (by simp)⟩
    have hlj : last ≠ j := by
      have hnd' : (front ++ (last :: j :: post)).Nodup := by
        rwa [List.append_assoc] at hnd
      have := (List.nodup_append.mp hnd').2.1
      intro hlj
      rw [hlj] at this
      simp at this
    have hpl : ∀ x ∈ post, x ≠ last := by
      intro x hx
      have hnd' : (front ++ [last] ++ j :: post).Nodup := hnd
      have hdis := (List.nodup_append.mp hnd').2.2 last (by simp) x (by simp [hx])
      exact fun h => hdis h.symm
    clear hfront hlast hstart hnd
    induction front generalizing start with
    | nil =>
      obtain ⟨hs, -⟩ := h
      refine ⟨hs, ?_⟩
      rw [show (LinkLists.cut start next (some last) post.head? j).2 last = post.head? by
        rw [LinkLists.cut]
        simp only [Function.update_of_ne hlj]
        exact Function.update_self _ _ _]
      exact hpost.congr fun x hx => cut_next (hjpost x hx) (fun h => hpl x hx (by
        exact (Option.some.inj h).symm))
    | cons z front ih =>
      obtain ⟨hs, h⟩ := h
      obtain ⟨hz, hzj⟩ := hlast' z List.mem_cons_self
      refine ⟨hs, ?_⟩
      have hnext : (LinkLists.cut start next (some last) post.head? j).2 z = next z :=
        cut_next hzj fun h => hz (Option.some.inj h).symm
      have hsame : (LinkLists.cut start next (some last) post.head? j).2 =
          (LinkLists.cut (next z) next (some last) post.head? j).2 := rfl
      rw [hnext, hsame]
      exact ih h fun x hx => hlast' x (List.mem_cons_of_mem _ hx)

/-! ### Searching -/

/-- The link that leads to `j`, from the link `link` with the value `start` on: `some none` is
no such link, `none` that the search took more steps than it may. -/
def findLink [DecidableEq N] (next : N → Option N) (j : N) :
    Nat → Option N → Option N → Option (Option (Option N))
  | 0, _, _ => none
  | _ + 1, _, none => some none
  | n + 1, link, some x => if x = j then some (some link) else findLink next j n (some x) (next x)

theorem Chain.findLink [DecidableEq N] (h : Chain next start (pre ++ j :: post)) {n : Nat}
    (hn : pre.length < n) (link : Option N) :
    findLink next j n link start = some (some (if pre = [] then link else pre.getLast?)) := by
  induction pre generalizing start n link with
  | nil =>
    obtain ⟨n, rfl⟩ : ∃ m, n = m + 1 := ⟨n - 1, by simp at hn; omega⟩
    obtain ⟨rfl, -⟩ := h
    rw [LinkLists.findLink, if_pos rfl, if_pos rfl]
  | cons y pre ih =>
    obtain ⟨n, rfl⟩ : ∃ m, n = m + 1 := ⟨n - 1, by simp at hn; omega⟩
    have hne : y ≠ j := by
      have := h.nodup
      rintro rfl
      simp at this
    obtain ⟨rfl, h⟩ := h
    rw [LinkLists.findLink, if_neg hne, ih h (by simpa using hn), if_neg (List.cons_ne_nil y pre)]
    cases pre with
    | nil => rfl
    | cons z pre => simp

end Jacl.LinkLists
