import Jacl.IrIntern

/-!
# The tables of the encoder are exact

As long as a table has fewer than 2 ^ 30 entries its answers are those of a linear search: the
loop over the slots ends, and the switch to the scan changes nothing.  With 2 ^ 30 entries the
product that decides on the switch is 0 again, so that the index is asked, which has the first 768
entries only; any other one is taken for new, and there is no capacity for it.

The pre-pass asks for what the emission asks for, so the emission adds nothing.
-/

namespace Jacl.Irb
open Readers Interning

section Intern

variable {α : Type}

/-- There is room in the table, or the entry is in the index. -/
def Fits (seen : List α) (x : α) : Prop := seen.length < 2 ^ 30 ∨ x ∈ seen.take 768

variable {hash : α → BitVec 32} {t : Entries α} {x : α}

structure Entries.Good (hash : α → BitVec 32) (t : Entries α) : Prop where
  sound : t.toTable.Sound 1024 fun x => (hash x).toNat
  /-- The slots have the first entries only. -/
  indexed : ∀ h, t.ix.getD h 0 ≤ 768
  room : t.entries.length ≤ t.cap
  /-- The capacities that doubling comes to. -/
  doubled : t.cap = 0 ∨ ∃ k ≤ 28, t.cap = 4 * 2 ^ k

theorem Entries.good_empty : (Entries.empty : Entries α).Good hash where
  sound := Table.sound_empty
  indexed h := by
    have hs : (Table.empty 1024 : Table α).Sound 1024 fun x => (hash x).toNat := Table.sound_empty
    exact Nat.le_trans (hs.filled h) (Nat.zero_le 768)
  room := Nat.zero_le 0
  doubled := .inl rfl

theorem Entries.inIndex_eq (hlt : t.entries.length < 2 ^ 30) :
    t.inIndex = t.toTable.hashed 1024 := by
  rw [inIndex, Table.hashed, decide_eq_decide]
  omega

namespace Entries.Good

theorem length_le (ht : t.Good hash) : t.entries.length ≤ 2 ^ 30 := by
  have hroom := ht.room
  obtain h0 | ⟨k, hk, hcap⟩ := ht.doubled
  · omega
  · have hpow : 2 ^ k ≤ 2 ^ 28 := Nat.pow_le_pow_right (by decide) hk
    omega

theorem grown (ht : t.Good hash) (hlt : t.entries.length < 2 ^ 30) :
    ∃ cap, t.grown = some cap ∧ t.entries.length + 1 ≤ cap ∧
      (cap = 0 ∨ ∃ k ≤ 28, cap = 4 * 2 ^ k) := by
  have hroom := ht.room
  rw [Entries.grown]
  split
  · rename_i hfull
    obtain h0 | ⟨k, hk, hcap⟩ := ht.doubled
    · refine ⟨4, ?_, by omega, .inr ⟨0, by decide, rfl⟩⟩
      rw [if_pos h0]
      rfl
    · have hpos : 0 < 2 ^ k := Nat.two_pow_pos k
      have hlt' : 2 ^ k < 2 ^ 28 := by omega
      have hk' : k < 28 := (Nat.pow_lt_pow_iff_right (by decide)).mp hlt'
      have hdouble : t.cap * 2 = 4 * 2 ^ (k + 1) := by
        rw [Nat.pow_succ]
        omega
      refine ⟨t.cap * 2, ?_, by omega, .inr ⟨k + 1, hk', hdouble⟩⟩
      rw [if_neg (by omega : t.cap ≠ 0)]
      exact if_pos (by omega)
  · exact ⟨t.cap, rfl, by omega, ht.doubled⟩

/-- What is added to a table that has room. -/
theorem append (ht : t.Good hash) (hlt : t.entries.length < 2 ^ 30) {ix : List Nat}
    (hsound : Table.Sound 1024 (fun x => (hash x).toNat) ⟨t.entries ++ [x], ix⟩)
    (hix : ∀ h, ix.getD h 0 ≤ 768) :
    ∃ t' : Entries α, t.append x ix = some (t.entries.length, t') ∧ t'.Good hash ∧
      t'.entries = t.entries ++ [x] := by
  obtain ⟨cap, hcap, hroom, hdoubled⟩ := ht.grown hlt
  refine ⟨⟨⟨t.entries ++ [x], ix⟩, cap⟩, ?_, ⟨hsound, hix, ?_, hdoubled⟩, rfl⟩
  · rw [Entries.append, hcap]
    rfl
  · rw [List.length_append]
    exact hroom

/-- There is no capacity for more than 2 ^ 30 entries. -/
theorem append_full (ht : t.Good hash) (hfull : t.entries.length = 2 ^ 30) (ix : List Nat) :
    t.append x ix = none := by
  have hroom := ht.room
  have hcap : t.cap = 2 ^ 30 := by
    obtain h0 | ⟨k, hk, hcap⟩ := ht.doubled
    · omega
    · have hpow : 2 ^ k ≤ 2 ^ 28 := Nat.pow_le_pow_right (by decide) hk
      omega
  rw [Entries.append, Entries.grown, if_pos (by omega), hcap]
  rfl

theorem put_le (ht : t.Good hash) (hlt : t.entries.length * 4 < 1024 * 3) (i h : Nat) :
    (t.ix.set i (t.entries.length + 1)).getD h 0 ≤ 768 := by
  rw [List.getD_eq_getElem?_getD, List.getElem?_set]
  have hold := ht.indexed h
  rw [List.getD_eq_getElem?_getD] at hold
  split
  · split
    · simp only [Option.getD_some]
      omega
    · exact Nat.zero_le 768
  · exact hold

variable [DecidableEq α]

/-- **Interning with room**: the number is that of a linear search. -/
theorem intern_room (ht : t.Good hash) (hlt : t.entries.length < 2 ^ 30) (x : α) :
    ∃ t' : Entries α, t.intern hash x = some (place x (add x t.entries), t') ∧ t'.Good hash ∧
      t'.entries = add x t.entries := by
  rw [Entries.intern, Entries.inIndex_eq hlt]
  by_cases hx : x ∈ t.entries
  · refine ⟨t, ?_, ht, (add_of_mem hx).symm⟩
    rw [add_of_mem hx]
    by_cases hh : t.toTable.hashed 1024
    · rw [if_pos hh, ht.sound.probe_mem hh hx]
    · rw [if_neg hh, if_pos hx]
  · have hadd : add x t.entries = t.entries ++ [x] := if_neg hx
    rw [hadd, place_append hx]
    by_cases hh : t.toTable.hashed 1024
    · obtain ⟨d, hd, hprobe, hzero, hbefore⟩ := ht.sound.probe_not_mem hh hx
      have hfew : t.entries.length * 4 < 1024 * 3 := of_decide_eq_true hh
      rw [if_pos hh, hprobe]
      exact ht.append hlt (ht.sound.put hh hx hd hzero hbefore) (ht.put_le hfew _)
    · rw [if_neg hh, if_neg hx]
      exact ht.append hlt (ht.sound.push hh hx) ht.indexed

/-- One of the first entries is found in any case. -/
theorem intern_placed (ht : t.Good hash) (hfull : t.entries.length = 2 ^ 30)
    (hx : x ∈ t.entries.take 768) : t.intern hash x = some (place x t.entries, t) := by
  have hin : t.inIndex := by
    rw [Entries.inIndex, hfull]
    decide
  have hplace : place x t.entries < 768 := by
    have hkept : place x t.entries = place x (t.entries.take 768) :=
      place_kept (List.take_prefix 768 t.entries) hx
    have hlt : place x (t.entries.take 768) < (t.entries.take 768).length :=
      List.idxOf_lt_length_of_mem hx
    rw [List.length_take] at hlt
    omega
  rw [Entries.intern, if_pos hin, ht.sound.probe_placed (List.mem_of_mem_take hx) (by omega)]

/-- The others are not, and there is no room for them. -/
theorem intern_full (ht : t.Good hash) (hfull : t.entries.length = 2 ^ 30)
    (hx : x ∉ t.entries.take 768) : t.intern hash x = none := by
  have hin : t.inIndex := by
    rw [Entries.inIndex, hfull]
    decide
  rw [Entries.intern, if_pos hin]
  split
  · rename_i i hprobe
    obtain ⟨h, hslot, hat⟩ := Table.probe_inl hprobe
    have hle := ht.indexed h
    refine absurd (List.mem_iff_getElem?.mpr ⟨i, ?_⟩) hx
    rw [List.getElem?_take_of_lt (by omega)]
    exact hat
  · exact ht.append_full hfull _
  · rfl

theorem intern_fits (ht : t.Good hash) (hf : Fits t.entries x) :
    ∃ t' : Entries α, t.intern hash x = some (place x (add x t.entries), t') ∧ t'.Good hash ∧
      t'.entries = add x t.entries := by
  by_cases hlt : t.entries.length < 2 ^ 30
  · exact ht.intern_room hlt x
  · have hfull : t.entries.length = 2 ^ 30 := Nat.le_antisymm ht.length_le (Nat.not_lt.mp hlt)
    have hx : x ∈ t.entries.take 768 := hf.resolve_left hlt
    have hadd : add x t.entries = t.entries := add_of_mem (List.mem_of_mem_take hx)
    rw [hadd]
    exact ⟨t, ht.intern_placed hfull hx, ht, rfl⟩

theorem intern_not_fits (ht : t.Good hash) (hf : ¬ Fits t.entries x) :
    t.intern hash x = none := by
  obtain ⟨hlt, hx⟩ := not_or.mp hf
  exact ht.intern_full (Nat.le_antisymm ht.length_le (Nat.not_lt.mp hlt)) hx

end Entries.Good

end Intern

structure ImportTable.Good (tab : ImportTable) : Prop where
  types : tab.types.Good sigHash
  imports : tab.imports.Good impHash

theorem ImportTable.good_empty : ImportTable.empty.Good :=
  ⟨Entries.good_empty, Entries.good_empty⟩

/-! ### Requests -/

def Tables.Fits (t : Tables) : Request → Prop
  | .sig s => Irb.Fits t.types s
  | .sym e => Irb.Fits t.imports e

/-- Each of some requests fits when it is made. -/
def Tables.AllFit (t : Tables) : List Request → Prop
  | [] => True
  | r :: rs => t.Fits r ∧ (t.request r).2.AllFit rs

variable {tab : ImportTable}

namespace ImportTable.Good

theorem request (hg : tab.Good) {r : Request} (hf : tab.tables.Fits r) :
    ∃ tab' : ImportTable, tab.request r = some ((tab.tables.request r).1, tab') ∧ tab'.Good ∧
      tab'.tables = (tab.tables.request r).2 := by
  cases r with
  | sig s =>
    obtain ⟨t', hin, hgood, hentries⟩ := hg.types.intern_fits hf
    refine ⟨{ tab with types := t' }, ?_, ⟨hgood, hg.imports⟩, ?_⟩
    · rw [ImportTable.request, internType, hin]
      rfl
    · exact congrArg (fun types => (⟨types, tab.imports.entries⟩ : Tables)) hentries
  | sym e =>
    obtain ⟨t', hin, hgood, hentries⟩ := hg.imports.intern_fits hf
    refine ⟨{ tab with imports := t' }, ?_, ⟨hg.types, hgood⟩, ?_⟩
    · rw [ImportTable.request, internImport, hin]
      rfl
    · exact congrArg (fun imports => (⟨tab.types.entries, imports⟩ : Tables)) hentries

theorem request_none (hg : tab.Good) {r : Request} (hf : ¬ tab.tables.Fits r) :
    tab.request r = none := by
  cases r with
  | sig s =>
    rw [ImportTable.request, internType, hg.types.intern_not_fits hf]
    rfl
  | sym e =>
    rw [ImportTable.request, internImport, hg.imports.intern_not_fits hf]
    rfl

theorem answers (hg : tab.Good) {rs : List Request} (hf : tab.tables.AllFit rs) :
    ∃ tab' : ImportTable, tab.answers rs = some ((tab.tables.answers rs).1, tab') ∧
      tab'.tables = (tab.tables.answers rs).2 := by
  induction rs generalizing tab with
  | nil => exact ⟨tab, rfl, rfl⟩
  | cons r rs ih =>
    obtain ⟨tab₁, hreq, hg₁, ht₁⟩ := hg.request hf.1
    obtain ⟨tab₂, hans, ht₂⟩ := ih hg₁ (by rw [ht₁]; exact hf.2)
    rw [ht₁] at hans ht₂
    refine ⟨tab₂, ?_, ht₂⟩
    rw [ImportTable.answers, hreq]
    show Option.bind (tab₁.answers rs) _ = _
    rw [hans]
    rfl

theorem answers_none (hg : tab.Good) {rs : List Request} (hf : ¬ tab.tables.AllFit rs) :
    tab.answers rs = none := by
  induction rs generalizing tab with
  | nil => exact absurd trivial hf
  | cons r rs ih =>
    rw [ImportTable.answers]
    by_cases hr : tab.tables.Fits r
    · obtain ⟨tab₁, hreq, hg₁, ht₁⟩ := hg.request hr
      have hrest : ¬ tab₁.tables.AllFit rs := by
        rw [ht₁]
        exact fun h => hf ⟨hr, h⟩
      rw [hreq]
      show Option.bind (tab₁.answers rs) _ = _
      rw [ih hg₁ hrest]
      rfl
    · rw [hg.request_none hr]
      rfl

end ImportTable.Good

/-! ### The two passes -/

/-- What an instruction asks for fits. -/
def Tables.NoteFits (t : Tables) : Named → Prop
  | .callSym (name, sig) _ _ =>
    Irb.Fits t.types sig ∧ Irb.Fits t.imports (name, place sig (add sig t.types))
  | .callDyn sig _ _ => Irb.Fits t.types sig
  | _ => True

/-- What each of some instructions asks for fits when it does. -/
def Tables.NotesFit (t : Tables) : List Named → Prop
  | [] => True
  | i :: is => t.NoteFits i ∧ (t.note i).NotesFit is

theorem Tables.notesFit_append {t : Tables} {is js : List Named} :
    t.NotesFit (is ++ js) ↔ t.NotesFit is ∧ (is.foldl note t).NotesFit js := by
  induction is generalizing t with
  | nil => exact ⟨fun h => ⟨trivial, h⟩, And.right⟩
  | cons i is ih =>
    rw [List.cons_append, NotesFit, ih, NotesFit, List.foldl_cons, and_assoc]

namespace ImportTable.Good

/-- A signature and an import of it. -/
theorem sym (hg : tab.Good) {name : List Byte} {sig : Sig}
    (hs : Fits tab.tables.types sig)
    (hi : Fits tab.tables.imports (name, place sig (add sig tab.tables.types))) :
    ∃ tab₁ tab₂ : ImportTable,
      internType tab sig = some (place sig (add sig tab.tables.types), tab₁) ∧
      internImport tab₁ (name, place sig (add sig tab.tables.types)) =
        some (place (name, place sig (add sig tab.tables.types))
          (add (name, place sig (add sig tab.tables.types)) tab.tables.imports), tab₂) ∧
      tab₂.Good ∧ tab₂.tables = ⟨add sig tab.tables.types,
        add (name, place sig (add sig tab.tables.types)) tab.tables.imports⟩ := by
  obtain ⟨tab₁, h₁, hg₁, ht₁⟩ := hg.request (r := .sig sig) hs
  have hi₁ : tab₁.tables.Fits (.sym (name, place sig (add sig tab.tables.types))) := by
    rw [ht₁]
    exact hi
  obtain ⟨tab₂, h₂, hg₂, ht₂⟩ := hg₁.request hi₁
  rw [ht₁] at h₂ ht₂
  exact ⟨tab₁, tab₂, h₁, h₂, hg₂, ht₂⟩

theorem sym_none (hg : tab.Good) {name : List Byte} {sig : Sig} {tab₁ : ImportTable}
    (hs : internType tab sig = some (place sig (add sig tab.tables.types), tab₁))
    (hf : Fits tab.tables.types sig)
    (hi : ¬ Fits tab.tables.imports (name, place sig (add sig tab.tables.types))) :
    internImport tab₁ (name, place sig (add sig tab.tables.types)) = none := by
  obtain ⟨tab₂, h₂, hg₂, ht₂⟩ := hg.request (r := .sig sig) hf
  obtain rfl : tab₁ = tab₂ := congrArg Prod.snd (Option.some.inj (hs.symm.trans h₂))
  apply hg₂.request_none (r := .sym _)
  rw [ht₂]
  exact hi

theorem encInst (hg : tab.Good) (k : InstKind) (hf : tab.tables.NoteFits k.instr) :
    ∃ tab' : ImportTable,
      encInst tab k = some ((tab.tables.note k.instr).number k.instr, tab') ∧
      tab'.Good ∧ tab'.tables = tab.tables.note k.instr := by
  cases k with
  | callImport name sig handle args =>
    obtain ⟨tab₁, tab₂, h₁, h₂, hg₂, ht₂⟩ := hg.sym hf.1 hf.2
    refine ⟨tab₂, ?_, hg₂, ht₂⟩
    rw [Irb.encInst, h₁]
    show Option.bind (internImport tab₁ _) _ = _
    rw [h₂]
    rfl
  | callIndirect sig addr args =>
    obtain ⟨tab₁, h₁, hg₁, ht₁⟩ := hg.request (r := .sig sig) hf
    refine ⟨tab₁, ?_, hg₁, ht₁⟩
    rw [ImportTable.request] at h₁
    rw [Irb.encInst, h₁]
    rfl
  | _ => exact ⟨tab, rfl, hg, rfl⟩

theorem encInst_none (hg : tab.Good) (k : InstKind) (hf : ¬ tab.tables.NoteFits k.instr) :
    Irb.encInst tab k = none := by
  cases k with
  | callImport name sig handle args =>
    by_cases hs : Fits tab.tables.types sig
    · obtain ⟨tab₁, h₁, -, -⟩ := hg.request (r := .sig sig) hs
      have hnone := hg.sym_none h₁ hs fun hi => hf ⟨hs, hi⟩
      have h₁' : internType tab sig = some (place sig (add sig tab.tables.types), tab₁) := h₁
      rw [Irb.encInst, h₁']
      show Option.bind (internImport tab₁ _) _ = _
      rw [hnone]
      rfl
    · have hnone := hg.request_none (r := .sig sig) hs
      rw [ImportTable.request] at hnone
      rw [Irb.encInst, hnone]
      rfl
  | callIndirect sig addr args =>
    have hnone := hg.request_none (r := .sig sig) hf
    rw [ImportTable.request] at hnone
    rw [Irb.encInst, hnone]
    rfl
  | _ => exact absurd trivial hf

end ImportTable.Good

/-- **The pre-pass asks for what the emission asks for.** -/
theorem prePass_eq (tab : ImportTable) (k : InstKind) :
    prePass tab k = (encInst tab k).map Prod.snd := by
  cases k with
  | callImport name sig handle args =>
    simp only [prePass, encInst, Option.bind_eq_bind, Option.pure_def, Option.map_bind]
    apply congrArg (Option.bind (internType tab sig))
    funext p
    simp only [Function.comp_def, Option.map_bind]
    rfl
  | callIndirect sig addr args =>
    simp only [prePass, encInst, Option.bind_eq_bind, Option.pure_def, Option.map_bind]
    rfl
  | _ => rfl

theorem foldlM_prePass (tab : ImportTable) (ks : List InstKind) :
    ks.foldlM prePass tab = (encInsts tab ks).map Prod.snd := by
  induction ks generalizing tab with
  | nil => rfl
  | cons k ks ih =>
    rw [List.foldlM_cons, prePass_eq, encInsts]
    cases encInst tab k with
    | none => rfl
    | some p =>
      simp only [Option.map_some, Option.bind_eq_bind, Option.bind_some, ih, Option.pure_def,
        Option.map_bind]
      cases encInsts p.2 ks <;> rfl

/-- The numbers for an instruction stay the same while the tables grow. -/
theorem Tables.Has.number_eq {t t' : Tables} {i : Named} (h : t.Has i) (he : t.Extends t') :
    t'.number i = t.number i := by
  cases i with
  | callSym imp handle args =>
    have htype : place imp.2 t'.types = place imp.2 t.types := place_kept he.types h.1
    have himp : place (imp.1, place imp.2 t'.types) t'.imports =
        place (imp.1, place imp.2 t.types) t.imports := by
      rw [htype]
      exact place_kept he.imports h.2
    rw [htype] at himp
    simp only [number, Instr.map, himp, htype]
  | callDyn sig idx args =>
    have htype : place sig t'.types = place sig t.types := place_kept he.types h
    simp only [number, Instr.map, htype]
  | _ => rfl

namespace ImportTable.Good

/-- The numbers that instructions get one after the other. -/
theorem encInsts (hg : tab.Good) {ks : List InstKind}
    (hf : tab.tables.NotesFit (ks.map InstKind.instr)) :
    ∃ (tab' : ImportTable) (out : List Numbered), encInsts tab ks = some (out, tab') ∧
      tab'.Good ∧ tab'.tables = (ks.map InstKind.instr).foldl Tables.note tab.tables ∧
      out = ks.map fun k => tab'.tables.number k.instr := by
  induction ks generalizing tab with
  | nil => exact ⟨tab, [], rfl, hg, rfl, rfl⟩
  | cons k ks ih =>
    obtain ⟨tab₁, h₁, hg₁, ht₁⟩ := hg.encInst k hf.1
    obtain ⟨tab₂, out, h₂, hg₂, ht₂, hout⟩ := ih hg₁ (by rw [ht₁]; exact hf.2)
    rw [ht₁] at ht₂
    refine ⟨tab₂, (tab.tables.note k.instr).number k.instr :: out, ?_, hg₂, ht₂, ?_⟩
    · rw [Irb.encInsts, h₁]
      show Option.bind (Irb.encInsts tab₁ ks) _ = _
      rw [h₂]
      rfl
    · -- what an instruction has when it is noted it keeps
      have hkeep : (tab.tables.note k.instr).number k.instr = tab₂.tables.number k.instr := by
        rw [ht₂]
        exact ((tab.tables.has_note k.instr).number_eq
          ((tab.tables.note k.instr).extends_foldl _)).symm
      rw [List.map_cons, hkeep, hout]

theorem encInsts_none (hg : tab.Good) {ks : List InstKind}
    (hf : ¬ tab.tables.NotesFit (ks.map InstKind.instr)) : Irb.encInsts tab ks = none := by
  induction ks generalizing tab with
  | nil => exact absurd trivial hf
  | cons k ks ih =>
    rw [Irb.encInsts]
    by_cases hk : tab.tables.NoteFits k.instr
    · obtain ⟨tab₁, h₁, hg₁, ht₁⟩ := hg.encInst k hk
      have hrest : ¬ tab₁.tables.NotesFit (ks.map InstKind.instr) := by
        rw [ht₁]
        exact fun h => hf ⟨hk, h⟩
      rw [h₁]
      show Option.bind (Irb.encInsts tab₁ ks) _ = _
      rw [ih hg₁ hrest]
      rfl
    · rw [hg.encInst_none k hk]
      rfl

end ImportTable.Good

theorem map_snd_bound (next : Nat) (is : List Inst) :
    (bound next is).map Prod.snd = is.map fun i => i.kind.instr := by
  induction is generalizing next with
  | nil => rfl
  | cons i is ih => rw [bound, List.map_cons, List.map_cons, ih]

/-- The order of the passes is that of the units. -/
theorem IrModule.instrs_body (m : IrModule) : m.body.instrs = m.kinds.map InstKind.instr := by
  simp only [Body.instrs, IrModule.body, IrModule.kinds, IrFunc.body, Block.body,
    List.flatMap_map, List.map_flatMap, List.map_map, map_snd_bound, Function.comp_def]

/-- Tables that have what the instructions need stay as they are. -/
theorem Tables.foldl_note_eq {t : Tables} {is : List Named} (h : ∀ i ∈ is, t.Has i) :
    is.foldl note t = t := by
  induction is with
  | nil => rfl
  | cons i is ih =>
    rw [List.foldl_cons, (h i List.mem_cons_self).note_eq]
    exact ih fun j hj => h j (List.mem_cons_of_mem i hj)

/-- The requests of the pre-pass, and then those of the emission. -/
def IrModule.Fits (m : IrModule) : Prop :=
  Tables.NotesFit ⟨[], []⟩ (m.body.instrs ++ m.body.instrs)

/-- Both passes of a module that fits. -/
theorem irbToEncoded_eq {m : IrModule} (hf : m.Fits) :
    irbToEncoded m = some (Tables.all m.body.instrs,
      m.body.instrs.map (Tables.all m.body.instrs).number, Tables.all m.body.instrs) := by
  obtain ⟨hpre, hemit⟩ := Tables.notesFit_append.mp hf
  have hstay : m.body.instrs.foldl Tables.note (Tables.all m.body.instrs) =
      Tables.all m.body.instrs := Tables.foldl_note_eq fun i hi => Tables.has_all hi
  rw [IrModule.instrs_body] at hpre hemit hstay ⊢
  obtain ⟨tab, out, h₁, hg, ht, -⟩ := ImportTable.good_empty.encInsts hpre
  have hall : tab.tables = Tables.all (m.kinds.map InstKind.instr) := ht
  obtain ⟨tab', out', h₂, -, ht', hout⟩ := hg.encInsts (by rw [ht]; exact hemit)
  rw [hall, hstay] at ht'
  rw [ht'] at hout
  rw [irbToEncoded, foldlM_prePass, h₁]
  show Option.bind (encInsts tab m.kinds) _ = _
  rw [h₂, List.map_map, hout]
  show some (tab.tables, _, tab'.tables) = _
  rw [hall, ht']
  rfl

theorem irbToEncoded_none {m : IrModule} (hf : ¬ m.Fits) : irbToEncoded m = none := by
  rw [IrModule.Fits, Tables.notesFit_append, IrModule.instrs_body] at hf
  rw [irbToEncoded, foldlM_prePass]
  by_cases hpre : Tables.NotesFit ⟨[], []⟩ (m.kinds.map InstKind.instr)
  · obtain ⟨tab, out, h₁, hg, ht, -⟩ := ImportTable.good_empty.encInsts hpre
    have hemit : ¬ tab.tables.NotesFit (m.kinds.map InstKind.instr) := by
      rw [ht]
      exact fun h => hf ⟨hpre, h⟩
    rw [h₁]
    show Option.bind (encInsts tab m.kinds) _ = _
    rw [hg.encInsts_none hemit]
    rfl
  · rw [ImportTable.good_empty.encInsts_none hpre]
    rfl

/-- The answers are those of a linear search in what was asked for before. -/
def Linear (rs : List Request) : Prop :=
  ∃ tab : ImportTable, ImportTable.empty.answers rs = some ((Tables.answers ⟨[], []⟩ rs).1, tab) ∧
    tab.tables = (Tables.answers ⟨[], []⟩ rs).2

/-- The sections of a module have what its instructions need, in the order of their first times;
the instructions have its numbers; and the emission adds nothing. -/
def Encodes (m : IrModule) : Prop :=
  irbToEncoded m = some (Tables.all m.body.instrs,
    m.body.instrs.map (Tables.all m.body.instrs).number, Tables.all m.body.instrs)

/-- **Interning**: the tables answer like a linear search if and only if every request fits, and
so do both passes over a module. -/
theorem interning_iff (rs : List Request) (m : IrModule) :
    (Linear rs ↔ Tables.AllFit ⟨[], []⟩ rs) ∧ (Encodes m ↔ m.Fits) := by
  refine ⟨⟨?_, ?_⟩, ?_, irbToEncoded_eq⟩
  · rintro ⟨tab, htab, -⟩
    by_contra hf
    have hnone := ImportTable.good_empty.answers_none hf
    rw [htab] at hnone
    contradiction
  · exact fun hf => ImportTable.good_empty.answers hf
  · intro henc
    by_contra hf
    have hnone : irbToEncoded m = none := irbToEncoded_none hf
    rw [henc] at hnone
    contradiction

/-! ### A table that is full -/

/-- Different signatures: the bits of a number. -/
def bitsSig (n : Nat) : Sig :=
  ⟨(List.range 30).map fun k => if n.testBit k then .i64 else .i32, []⟩

theorem bitsSig_injective {n n' : Nat} (hn : n < 2 ^ 30) (hn' : n' < 2 ^ 30)
    (h : bitsSig n = bitsSig n') : n = n' := by
  apply Nat.eq_of_testBit_eq
  intro k
  by_cases hk : k < 30
  · have hat := congrArg (fun s : Sig => s.params[k]?) h
    simp only [bitsSig, List.getElem?_map, List.getElem?_range hk, Option.map_some,
      Option.some.injEq] at hat
    cases hb : n.testBit k <;> cases hb' : n'.testBit k <;> simp_all
  · have hpow : 2 ^ 30 ≤ 2 ^ k := Nat.pow_le_pow_right (by decide) (Nat.not_lt.mp hk)
    rw [Nat.testBit_lt_two_pow (Nat.lt_of_lt_of_le hn hpow),
      Nat.testBit_lt_two_pow (Nat.lt_of_lt_of_le hn' hpow)]

theorem nodup_bitsSig {n : Nat} (hn : n ≤ 2 ^ 30) : ((List.range n).map bitsSig).Nodup := by
  rw [List.nodup_map_iff_inj_on List.nodup_range]
  intro k hk k' hk' h
  exact bitsSig_injective (Nat.lt_of_lt_of_le (List.mem_range.mp hk) hn)
    (Nat.lt_of_lt_of_le (List.mem_range.mp hk') hn) h

/-- Different signatures make as many entries. -/
theorem Tables.AllFit.last {t : Tables} {ss : List Sig} {r : Request}
    (hnodup : (t.types ++ ss).Nodup) (hf : t.AllFit (ss.map Request.sig ++ [r])) :
    Tables.Fits ⟨t.types ++ ss, t.imports⟩ r := by
  induction ss generalizing t with
  | nil =>
    rw [List.append_nil]
    exact hf.1
  | cons s ss ih =>
    have hnew : s ∉ t.types := by
      intro hs
      exact List.disjoint_of_nodup_append hnodup hs List.mem_cons_self
    have hadd : add s t.types = t.types ++ [s] := if_neg hnew
    have hrest : Tables.AllFit ⟨add s t.types, t.imports⟩ (ss.map Request.sig ++ [r]) := hf.2
    rw [hadd] at hrest
    have hlast := ih (t := ⟨t.types ++ [s], t.imports⟩)
      (by rw [List.append_assoc]; exact hnodup) hrest
    rw [List.append_assoc] at hlast
    exact hlast

/-- Some signatures, and then the one with a number again. -/
def again (n k : Nat) : List Request :=
  ((List.range n).map bitsSig).map Request.sig ++ [.sig (bitsSig k)]

theorem Tables.AllFit.again {n k : Nat} (hn : n ≤ 2 ^ 30)
    (hf : Tables.AllFit ⟨[], []⟩ (again n k)) :
    n < 2 ^ 30 ∨ ∃ i < 768, i < n ∧ bitsSig i = bitsSig k := by
  obtain hlt | hmem : Irb.Fits ([] ++ (List.range n).map bitsSig) (bitsSig k) :=
    hf.last (nodup_bitsSig hn)
  · rw [List.nil_append, List.length_map, List.length_range] at hlt
    exact .inl hlt
  · rw [List.nil_append, ← List.map_take, List.take_range] at hmem
    obtain ⟨i, hi, heq⟩ := List.mem_map.mp hmem
    have hmin := List.mem_range.mp hi
    exact .inr ⟨i, by omega, by omega, heq⟩

theorem not_linear_again {n k : Nat} (hn : n = 2 ^ 30) (hk : 768 ≤ k) (hkn : k < n) :
    ¬ Linear (again n k) := by
  rintro ⟨tab, htab, -⟩
  by_cases hf : Tables.AllFit ⟨[], []⟩ (again n k)
  · obtain hlt | ⟨i, hi, -, heq⟩ := hf.again (Nat.le_of_eq hn)
    · omega
    · have : i = k := bitsSig_injective (by omega) (by omega) heq
      omega
  · have hnone := ImportTable.good_empty.answers_none hf
    rw [htab] at hnone
    contradiction

/-- **A table that is full**: the first entry that is not in the index is not found again. -/
theorem not_interning : ¬ Linear (again (2 ^ 30) 768) :=
  not_linear_again rfl (by decide) (by decide)

end Jacl.Irb
