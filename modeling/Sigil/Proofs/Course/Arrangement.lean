import Sigil.Proofs.Correctness
import Sigil.Proofs.Course.Sections
import Sigil.Proofs.Scoping.Compilation

/-!
How the code of a program is laid out: block by block, first that of the body and then those of the
functions, each closed by its last instruction, with jumps that stay inside and calls that lead to the
start of another block.
-/
namespace Sigil

open Draft (fixed)

namespace Instruction

def call? : Instruction → Option Nat
  | call target => some target
  | _ => none

def Closes : Instruction → Prop
  | result _ | exit _ => True
  | _ => False

end Instruction

structure Part.Fills (p : Program) (entry : String → Nat) (x : Part) (start : Nat)
    (block : List Instruction) : Prop where
  /-- The last instruction, and no other, closes the block. -/
  closed : ∃ inner, block = inner ++ [x.last] ∧ ∀ i ∈ inner, ¬ i.Closes
  jumps : ∀ i ∈ block, ∀ target, i.jump? = some target →
    start ≤ target ∧ target < start + block.length
  /-- The calls are those of the tree, in the order in which they are evaluated. -/
  calls : block.filterMap Instruction.call? = (p.tree x).callees.map entry

/-- From an address on, the code has a block for every part, and functions are entered where their
blocks start. -/
inductive Program.Arranged (p : Program) (entry : String → Nat) :
    Nat → List Part → List Instruction → Prop
  | nil (start : Nat) : p.Arranged entry start [] []
  | cons {start : Nat} {x : Part} {parts : List Part} {block rest : List Instruction}
      (hstart : x.base entry = start) (hblock : x.Fills p entry start block)
      (hrest : p.Arranged entry (start + block.length) parts rest) :
      p.Arranged entry start (x :: parts) (block ++ rest)

def Part.label? (entry : String → Nat) : Part → Option (Nat × String)
  | body => none
  | function f => some (entry f.name, f.name)

variable {p : Program} {code : Code} {entry : String → Nat} {sections : List Section} {s : Section}
  {d : Draft}

namespace Point.Fits

variable {c : Limits} {P : Point}

theorem not_closes (hd : P.Fits c d) (entry : String → Nat) : ¬ (d.link entry).Closes := by
  cases hd <;> exact id

theorem call?_link (hd : P.Fits c d) (entry : String → Nat) :
    (d.link entry).call? = d.callee?.map entry := by
  cases hd <;> rfl

end Point.Fits

theorem Draft.jump?_link (d : Draft) (entry : String → Nat) : (d.link entry).jump? = d.jump? := by
  cases d <;> rfl

namespace Program.Sectioned

theorem closed (h : p.Sectioned code entry sections) (hs : s ∈ sections) :
    ∃ inner, s.draft.map (Draft.link entry) = inner ++ [s.part.last] ∧ ∀ i ∈ inner, ¬ i.Closes := by
  obtain ⟨b, hb, hkeeps, -⟩ := h.keeps hs
  refine ⟨b.map (Draft.link entry), by simp [hb, Draft.link], fun i hi => ?_⟩
  obtain ⟨d, hd, rfl⟩ := List.mem_map.1 hi
  obtain ⟨x, y, rfl⟩ := List.append_of_mem hd
  exact hkeeps.fits.1.not_closes entry

theorem jumps {target : Nat} (h : p.Sectioned code entry sections) (hs : s ∈ sections)
    (hd : d ∈ s.draft) (hj : d.jump? = some target) : s.Has target := by
  obtain ⟨x, y, hx⟩ := List.append_of_mem hd
  cases h.spot hs hx with
  | last _ => cases hpart : s.part <;> rw [hpart] at hj <;> cases hj
  | inner _ hjump _ => exact (hjump target hj).has

theorem call?_link (h : p.Sectioned code entry sections) (hs : s ∈ sections) (hd : d ∈ s.draft) :
    (d.link entry).call? = d.callee?.map entry := by
  obtain ⟨x, y, hx⟩ := List.append_of_mem hd
  cases h.spot hs hx with
  | last _ => cases s.part <;> rfl
  | inner hd _ _ => exact hd.call?_link entry

theorem calls (h : p.Sectioned code entry sections) (hs : s ∈ sections) :
    (s.draft.map (Draft.link entry)).filterMap Instruction.call? =
      (p.tree s.part).callees.map entry := by
  rw [← h.callees_eq hs, Draft.callees, List.map_filterMap, List.filterMap_map]
  exact List.filterMap_congr fun d hd => h.call?_link hs hd

theorem fills (h : p.Sectioned code entry sections) (hs : s ∈ sections) :
    s.part.Fills p entry s.start (s.draft.map (Draft.link entry)) where
  closed := h.closed hs
  jumps := by
    intro i hi target hj
    obtain ⟨d, hd, rfl⟩ := List.mem_map.1 hi
    rw [Draft.jump?_link] at hj
    rw [List.length_map]
    exact h.jumps hs hd hj
  calls := h.calls hs

/-- Consecutive sections are arranged one behind the other. -/
theorem arranged {start : Nat} {later : List Section} (h : p.Sectioned code entry sections)
    (hlater : ∀ s ∈ later, s ∈ sections) (hc : Consecutive start later) :
    p.Arranged entry start (later.map Section.part)
      ((later.flatMap Section.draft).map (Draft.link entry)) := by
  induction later generalizing start with
  | nil => exact .nil start
  | cons s later ih =>
    obtain ⟨hstart, hc⟩ := hc
    obtain ⟨hs, hlater⟩ := List.forall_mem_cons.1 hlater
    rw [List.flatMap_cons, List.map_append]
    refine .cons ((h.starts s hs).symm.trans hstart) (hstart ▸ h.fills hs) ?_
    rw [List.length_map]
    exact ih hlater hc

theorem label?_eq (h : p.Sectioned code entry sections) (hs : s ∈ sections) :
    s.label? = s.part.label? entry := by
  have hstart := h.starts s hs
  unfold Section.label? Part.label?
  cases hpart : s.part with
  | body => rfl
  | function f =>
    rw [hpart, Part.base] at hstart
    simp only [hstart]

theorem labels_eq (h : p.Sectioned code entry sections) :
    code.labels = p.functions.map fun f => (entry f.name, f.name) := by
  calc code.labels = sections.filterMap fun s => s.part.label? entry := by
        rw [h.labels]
        exact List.filterMap_congr fun s hs => h.label?_eq hs
    _ = p.parts.filterMap (Part.label? entry) := by
        rw [← h.parts, List.filterMap_map]
        rfl
    _ = p.functions.map fun f => (entry f.name, f.name) := by
        rw [Program.parts, List.filterMap_cons_none rfl, List.filterMap_map]
        exact congrFun (List.filterMap_eq_map (f := fun f => (entry f.name, f.name))) p.functions

/-- Calls are of functions that are declared. -/
theorem declared {name : String} (h : p.Sectioned code entry sections) (hs : s ∈ sections)
    (hname : name ∈ (p.tree s.part).callees) : ∃ f ∈ p.functions, f.name = name := by
  rw [← h.callees_eq hs, Draft.mem_callees] at hname
  obtain ⟨x, y, hx⟩ := List.append_of_mem hname
  cases h.spot hs hx with
  | inner hd _ _ =>
    cases hd with
    | call _ harity _ =>
      obtain ⟨f, hf, hname, -⟩ := (arity?_eq_some h.names name _).1 harity
      exact ⟨f, hf, hname⟩

end Program.Sectioned

/-- The code of a program is arranged in blocks, with one label for each function, and every call leads
to a function that is declared. -/
theorem Program.arranged_of_compile (h : p.compile = .ok code) :
    ∃ entry : String → Nat, p.Arranged entry 0 p.parts code.instructions.toList ∧
      code.labels = p.functions.map (fun f => (entry f.name, f.name)) ∧
      ∀ x ∈ p.parts, ∀ name ∈ (p.tree x).callees, ∃ f ∈ p.functions, f.name = name := by
  obtain ⟨entry, sections, hp⟩ := sectioned_of_compile h
  refine ⟨entry, ?_, hp.labels_eq, fun x hx name hname => ?_⟩
  · rw [← hp.parts, hp.instructions]
    exact hp.arranged (fun _ hs => hs) hp.consecutive
  · obtain ⟨s, hs, rfl⟩ := hp.exists_section hx
    exact hp.declared hs hname

theorem Program.arranged_echo : ∃ entry : String → Nat, entry "echo" = 9 ∧
    echo.Arranged entry 0 echo.parts Code.echo.instructions.toList := by
  obtain ⟨entry, harranged, hlabels, -⟩ := arranged_of_compile compile_echo
  have hlabel : [(9, "echo")] = [(entry "echo", "echo")] := hlabels
  simp only [List.cons.injEq, Prod.mk.injEq, and_true] at hlabel
  exact ⟨entry, hlabel.symm, harranged⟩

end Sigil
