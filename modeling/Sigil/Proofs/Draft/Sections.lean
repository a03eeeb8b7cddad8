import Sigil.Proofs.Draft.Parts

/-!
Sections: the parts of a compiled program with their places. The code is nothing but its sections, one
behind the other, and every function has its label where its section starts.
-/
namespace Sigil

open Draft (fixed)

structure Section where
  part : Part
  start : Nat
  draft : List Draft

namespace Section

def label? (s : Section) : Option (Nat × String) :=
  match s.part with
  | .body => none
  | .function f => some (s.start, f.name)

def Has (s : Section) (address : Nat) : Prop :=
  s.start ≤ address ∧ address < s.start + s.draft.length

end Section

def Consecutive : Nat → List Section → Prop
  | _, [] => True
  | start, s :: sections => s.start = start ∧ Consecutive (start + s.draft.length) sections

variable {p : Program} {code : Code} {entry : String → Nat} {sections : List Section} {s : Section}
  {start address : Nat}

theorem Section.label?_eq_some {l : Nat × String} :
    s.label? = some l ↔ ∃ f, s.part = .function f ∧ l = (s.start, f.name) := by
  unfold label?
  cases s.part with
  | body => simp
  | function f => simp [eq_comm]

theorem Consecutive.le_start (h : Consecutive start sections) (hs : s ∈ sections) :
    start ≤ s.start := by
  induction sections generalizing start with
  | nil => cases hs
  | cons t sections ih =>
    obtain ⟨rfl, h⟩ := h
    rcases List.mem_cons.1 hs with rfl | hs
    · exact Nat.le_refl _
    · exact Nat.le_trans (Nat.le_add_right _ _) (ih h hs)

/-- The address of a section counts what is placed before it. -/
theorem Consecutive.split (h : Consecutive start sections) (hs : s ∈ sections) :
    ∃ a b, sections.flatMap Section.draft = a ++ s.draft ++ b ∧ s.start = start + a.length := by
  induction sections generalizing start with
  | nil => cases hs
  | cons t sections ih =>
    obtain ⟨rfl, h⟩ := h
    rcases List.mem_cons.1 hs with rfl | hs
    · exact ⟨[], sections.flatMap Section.draft, rfl, rfl⟩
    · obtain ⟨a, b, hab, hstart⟩ := ih h hs
      refine ⟨t.draft ++ a, b, ?_, ?_⟩
      · simp [hab]
      · rw [hstart, List.length_append, Nat.add_assoc]

/-- No two sections have an address in common. -/
theorem Consecutive.eq_of_has {t : Section} (h : Consecutive start sections) (hs : s ∈ sections)
    (ht : t ∈ sections) (hsa : s.Has address) (hta : t.Has address) : s = t := by
  induction sections generalizing start with
  | nil => cases hs
  | cons u sections ih =>
    obtain ⟨rfl, h⟩ := h
    rcases List.mem_cons.1 hs with rfl | hs'
    · rcases List.mem_cons.1 ht with rfl | ht'
      · rfl
      · exact absurd (h.le_start ht') (Nat.not_le_of_lt (Nat.lt_of_le_of_lt hta.1 hsa.2))
    · rcases List.mem_cons.1 ht with rfl | ht'
      · exact absurd (h.le_start hs') (Nat.not_le_of_lt (Nat.lt_of_le_of_lt hsa.1 hta.2))
      · exact ih h hs' ht'

/-- No label of sections from an address on lies before the address. -/
theorem Consecutive.labels_before (h : Consecutive start sections) (ha : address < start) :
    (sections.filterMap Section.label?).filter (·.1 ≤ address) = [] := by
  refine List.filter_eq_nil_iff.2 fun l hl => ?_
  obtain ⟨s, hs, hlabel⟩ := List.mem_filterMap.1 hl
  obtain ⟨f, -, rfl⟩ := Section.label?_eq_some.1 hlabel
  have hstart := h.le_start hs
  simp only [decide_eq_true_eq]
  omega

/-- In the section of a function, the last label so far is that of the function. -/
theorem Consecutive.last_label {f : Function} (h : Consecutive start sections) (hs : s ∈ sections)
    (hf : s.part = .function f) (ha : s.Has address) :
    ((sections.filterMap Section.label?).filter (·.1 ≤ address)).getLast? =
      some (s.start, f.name) := by
  induction sections generalizing start with
  | nil => cases hs
  | cons t sections ih =>
    obtain ⟨rfl, h⟩ := h
    rcases List.mem_cons.1 hs with rfl | hs
    · have hlabel : s.label? = some (s.start, f.name) := Section.label?_eq_some.2 ⟨f, hf, rfl⟩
      rw [List.filterMap_cons_some hlabel, List.filter_cons_of_pos (by simpa using ha.1),
        h.labels_before ha.2]
      rfl
    · have hlast := ih h hs
      cases hlabel : t.label? with
      | none =>
        rw [List.filterMap_cons_none hlabel]
        exact hlast
      | some l =>
        rw [List.filterMap_cons_some hlabel, List.filter_cons]
        split
        · rw [List.getLast?_cons, hlast]
          rfl
        · exact hlast

namespace Program

def tree (p : Program) : Part → Expr
  | .body => p.body
  | .function f => f.body

/-- The tree whose code an address lies in: that of the function with the last label so far, or else
the body of the program. -/
def treeAt (p : Program) (code : Code) (address : Nat) : Expr :=
  match (code.labels.filter (·.1 ≤ address)).getLast? with
  | none => p.body
  | some (_, name) => ((p.functions.map fun f => (f.name, f.body)).lookup name).getD p.body

structure Sectioned (p : Program) (code : Code) (entry : String → Nat) (sections : List Section) :
    Prop where
  names : (p.functions.map Function.name).Nodup
  parts : sections.map Section.part = p.parts
  consecutive : Consecutive 0 sections
  starts : ∀ s ∈ sections, s.start = s.part.base entry
  block : ∀ s ∈ sections, ∃ cell,
    p.partBlock s.part { p.layout with cell, start := s.start } = some s.draft
  instructions : code.instructions.toList = (sections.flatMap Section.draft).map (Draft.link entry)
  labels : code.labels = sections.filterMap Section.label?

/-- Functions that are placed one behind the other are consecutive sections. -/
theorem exists_sections {fs : List Function} {L : Layout} {entries : List (String × Nat)}
    {code : List Draft} (p : Program) (entry : String → Nat)
    (h : Function.blocks fs L = some (entries, code)) (he : ∀ e ∈ entries, entry e.1 = e.2) :
    ∃ sections : List Section, sections.map Section.part = fs.map .function ∧
      Consecutive L.start sections ∧ (∀ s ∈ sections, s.start = s.part.base entry) ∧
      (∀ s ∈ sections, ∃ cell,
        p.partBlock s.part { L.grounded with cell, start := s.start } = some s.draft) ∧
      code = sections.flatMap Section.draft ∧
      entries.map Prod.swap = sections.filterMap Section.label? := by
  induction fs generalizing L entries code with
  | nil =>
    cases h
    exact ⟨[], rfl, trivial, nofun, nofun, rfl, rfl⟩
  | cons f fs ih =>
    obtain ⟨first, hfirst, entries, rest, hrest, rfl, rfl⟩ := Function.blocks_cons_eq_some.1 h
    rw [List.forall_mem_cons] at he
    obtain ⟨sections, hparts, hconsecutive, hstarts, hblock, rfl, hlabels⟩ := ih hrest he.2
    refine ⟨⟨.function f, L.start, first⟩ :: sections, ?_, ⟨rfl, hconsecutive⟩,
      List.forall_mem_cons.2 ⟨he.1.symm, hstarts⟩,
      List.forall_mem_cons.2 ⟨⟨L.cell, hfirst⟩, hblock⟩, rfl, ?_⟩
    · rw [List.map_cons, List.map_cons, hparts]
    · rw [List.map_cons, hlabels]
      rfl

/-- A compiled program stands in its code section by section. -/
theorem sectioned_of_compile (h : p.compile = .ok code) :
    ∃ entry sections, p.Sectioned code entry sections := by
  obtain ⟨entries, drafts, t, g⟩ := emitted_of_compile h
  obtain ⟨b, rest, hb, hrest, rfl⟩ := draft_eq_some.1 g.draft_eq
  obtain ⟨sections, hparts, hconsecutive, hstarts, hblock, rfl, hlabels⟩ :=
    exists_sections p (fun name => (t.linker.address? name).getD 0) hrest
      fun e he => g.address_eq he
  have hmain : (p.layout.behind (b ++ [fixed (.exit .accumulator)])).start =
      0 + (b ++ [fixed (.exit .accumulator)]).length := rfl
  rw [hmain] at hconsecutive
  exact ⟨_, ⟨.body, 0, b ++ [fixed (.exit .accumulator)]⟩ :: sections, {
    names := g.names
    parts := by rw [List.map_cons, hparts, parts]
    consecutive := ⟨rfl, hconsecutive⟩
    starts := List.forall_mem_cons.2 ⟨rfl, hstarts⟩
    block := List.forall_mem_cons.2 ⟨⟨0, Option.map_eq_some_iff.2 ⟨b, hb, rfl⟩⟩, hblock⟩
    instructions := g.instructions
    labels := g.labels.trans hlabels }⟩

namespace Sectioned

theorem holds (h : p.Sectioned code entry sections) (hs : s ∈ sections) :
    code.Holds entry s.start s.draft := by
  obtain ⟨a, b, hab, hstart⟩ := h.consecutive.split hs
  have hcode := h.instructions
  rw [hab] at hcode
  rw [hstart, Nat.zero_add]
  exact Code.holds_of_append hcode

/-- What stands behind `x` in a section. -/
theorem get {x y : List Draft} {d : Draft} (h : p.Sectioned code entry sections) (hs : s ∈ sections)
    (hx : s.draft = x ++ d :: y) : code.get? (s.start + x.length) = some (d.link entry) := by
  refine h.holds hs _ _ ?_
  rw [hx, List.getElem?_append_right (Nat.le_refl _), Nat.sub_self]
  rfl

theorem mem_parts (h : p.Sectioned code entry sections) (hs : s ∈ sections) : s.part ∈ p.parts :=
  h.parts ▸ List.mem_map_of_mem hs

theorem mem_functions {f : Function} (h : p.Sectioned code entry sections) (hs : s ∈ sections)
    (hf : s.part = .function f) : f ∈ p.functions := by
  have hmem := h.mem_parts hs
  rw [hf] at hmem
  simpa [Program.parts] using hmem

theorem exists_section (h : p.Sectioned code entry sections) {x : Part} (hx : x ∈ p.parts) :
    ∃ s ∈ sections, s.part = x := by
  rw [← h.parts] at hx
  exact List.mem_map.1 hx

theorem mem_labels {name : String} (h : p.Sectioned code entry sections) :
    (address, name) ∈ code.labels ↔
      ∃ s ∈ sections, ∃ f, s.part = .function f ∧ s.start = address ∧ f.name = name := by
  rw [h.labels, List.mem_filterMap]
  constructor
  · rintro ⟨s, hs, hlabel⟩
    obtain ⟨f, hf, hl⟩ := Section.label?_eq_some.1 hlabel
    cases hl
    exact ⟨s, hs, f, hf, rfl, rfl⟩
  · rintro ⟨s, hs, f, hf, rfl, rfl⟩
    exact ⟨s, hs, Section.label?_eq_some.2 ⟨f, hf, rfl⟩⟩

/-- The section of the body comes first. -/
theorem exists_main (h : p.Sectioned code entry sections) :
    ∃ s rest, sections = s :: rest ∧ s.part = .body ∧ ∀ t ∈ rest, ∃ f, t.part = .function f := by
  have hparts := h.parts
  cases sections with
  | nil => cases hparts
  | cons s rest =>
    rw [List.map_cons, Program.parts, List.cons.injEq] at hparts
    refine ⟨s, rest, rfl, hparts.1, fun t ht => ?_⟩
    have hmem : t.part ∈ p.functions.map Part.function := hparts.2 ▸ List.mem_map_of_mem ht
    obtain ⟨f, -, hf⟩ := List.mem_map.1 hmem
    exact ⟨f, hf.symm⟩

/-- The tree at an address is that of the section around it. -/
theorem treeAt_eq (h : p.Sectioned code entry sections) (hs : s ∈ sections)
    (ha : s.Has address) : p.treeAt code address = p.tree s.part := by
  unfold treeAt
  rw [h.labels]
  cases hpart : s.part with
  | body =>
    obtain ⟨t, rest, rfl, ht, hrest⟩ := h.exists_main
    have hst : s = t := by
      rcases List.mem_cons.1 hs with rfl | hs
      · rfl
      · obtain ⟨f, hf⟩ := hrest s hs
        rw [hf] at hpart
        cases hpart
    obtain rfl := hst
    have hlabel : s.label? = none := by simp only [Section.label?, hpart]
    obtain ⟨hstart, hconsecutive⟩ := h.consecutive
    rw [List.filterMap_cons_none hlabel, hconsecutive.labels_before (hstart ▸ ha.2)]
    rfl
  | function f =>
    have hf := h.mem_functions hs hpart
    have hkeys : ((p.functions.map fun f => (f.name, f.body)).map Prod.fst).Nodup := by
      rw [List.map_map]
      exact h.names
    have hlookup : (p.functions.map fun f => (f.name, f.body)).lookup f.name = some f.body :=
      lookup_of_mem hkeys (List.mem_map_of_mem hf)
    rw [h.consecutive.last_label hs hpart ha]
    simp only [hlookup, Option.getD_some]
    rfl

end Sectioned

end Program
end Sigil
