import Sigil.Proofs.Scoping.Linking
import Sigil.Proofs.Draft.Shift

/-!
The code of a program in parts: its body and its functions. Where each of them starts is a matter of
the order; what stands there is the same draft in any case, moved to the place.
-/
namespace Sigil

open Draft (fixed)

inductive Part where
  | body
  | function (f : Function)

namespace Part

def last : Part → Instruction
  | body => .exit .accumulator
  | function _ => .result .accumulator

def base (of : String → Nat) : Part → Nat
  | body => 0
  | function f => of f.name

end Part

variable {p : Program} {x : Part} {L : Layout} {d : List Draft} {start cell : Nat}

namespace Program

def parts (p : Program) : List Part := .body :: p.functions.map .function

def partBlock (p : Program) : Part → Block
  | .body => fun L => (p.body.block L).map (· ++ [fixed (.exit .accumulator)])
  | .function f => f.block

def partDraft (p : Program) (x : Part) : List Draft := (p.partBlock x p.layout).getD []

theorem mem_parts {f : Function} (hf : f ∈ p.functions) : .function f ∈ p.parts :=
  List.mem_cons_of_mem _ (List.mem_map_of_mem hf)

theorem bounded_part (h : p.partBlock x L = some d) :
    ∃ b, d = b ++ [fixed x.last] ∧ (L.region b).Has b := by
  cases x with
  | body =>
    obtain ⟨b, hb, rfl⟩ := Option.map_eq_some_iff.1 h
    exact ⟨b, rfl, p.body.bounded_block _ _ hb⟩
  | function f =>
    obtain ⟨-, b, hb, rfl⟩ := Function.block_eq_some.1 h
    exact ⟨b, rfl, (f.body.bounded_block _ _ hb :)⟩

theorem declared_part (h : p.partBlock x L = some d) : L.Declares d := by
  cases x with
  | body =>
    obtain ⟨b, hb, rfl⟩ := Option.map_eq_some_iff.1 h
    simpa using p.body.declared_block _ _ hb
  | function f => exact f.declared_block _ _ h

theorem behind_shift (p : Program) (b : List Draft) :
    (p.layout.shift start cell).grounded.behind (b.map (Draft.shift start cell)) =
      p.layout.shift (start + b.length) (cell + b.countP Draft.isNew) := by
  simp [Layout.behind, Layout.grounded, Layout.shift, layout]

theorem behind_layout (p : Program) (b : List Draft) :
    p.layout.behind b = p.layout.shift b.length (b.countP Draft.isNew) := by
  simp [Layout.behind, Layout.shift, layout]

theorem blocks_iff {fs : List Function} :
    (∃ e, Function.blocks fs (p.layout.shift start cell) = some e) ↔
      ∀ f ∈ fs, ∃ b, f.block p.layout = some b := by
  induction fs generalizing start cell with
  | nil => exact ⟨fun _ f hf => absurd hf List.not_mem_nil, fun _ => ⟨_, rfl⟩⟩
  | cons f fs ih =>
    rw [List.forall_mem_cons]
    cases hb : f.block p.layout with
    | none => simp [Function.blocks, f.shifts_block.none hb]
    | some b =>
      rw [← @ih (start + b.length) (cell + b.countP Draft.isNew), ← behind_shift]
      simp only [Function.blocks, f.shifts_block.some hb, Option.bind_eq_bind, Option.bind_some,
        Option.pure_def, Option.bind_eq_some_iff, Option.some.injEq, exists_eq', true_and]
      constructor
      · rintro ⟨-, rest, hrest, -⟩
        exact ⟨rest, hrest⟩
      · rintro ⟨rest, hrest⟩
        exact ⟨_, rest, hrest, rfl⟩

/-- A program has a draft if all its parts have one. -/
theorem draft_iff : (∃ d, p.draft = some d) ↔
    ∀ x ∈ p.parts, ∃ d, p.partBlock x p.layout = some d := by
  have hfunctions : (∀ x ∈ p.functions.map Part.function, ∃ d, p.partBlock x p.layout = some d) ↔
      ∀ f ∈ p.functions, ∃ b, f.block p.layout = some b := List.forall_mem_map
  rw [parts, List.forall_mem_cons, hfunctions]
  constructor
  · rintro ⟨⟨entries, code⟩, h⟩
    obtain ⟨b, rest, hb, hrest, -⟩ := draft_eq_some.1 h
    rw [behind_layout] at hrest
    exact ⟨⟨_, Option.map_eq_some_iff.2 ⟨b, hb, rfl⟩⟩, blocks_iff.1 ⟨_, hrest⟩⟩
  · rintro ⟨⟨d, hd⟩, hfs⟩
    obtain ⟨b, hb, rfl⟩ := Option.map_eq_some_iff.1 hd
    obtain ⟨⟨entries, rest⟩, hrest⟩ := blocks_iff.2 hfs
    rw [← behind_layout] at hrest
    exact ⟨_, draft_eq_some.2 ⟨b, rest, hb, hrest, rfl⟩⟩

theorem partDraft_eq (h : p.partBlock x p.layout = some d) : p.partDraft x = d := by
  rw [partDraft, h, Option.getD_some]

/-- Functions that are placed one behind the other have cells one behind the other, too. -/
theorem exists_cells {fs : List Function} {entries : List (String × Nat)} {code : List Draft}
    (hn : (fs.map Function.name).Nodup)
    (h : Function.blocks fs (p.layout.shift start cell) = some (entries, code)) :
    ∃ cells : String → Nat,
      (∀ f ∈ fs, ∃ a b c, f.block p.layout = some b ∧ (f.name, start + a.length) ∈ entries ∧
        code = a ++ b.map (Draft.shift (start + a.length) (cells f.name)) ++ c) ∧
      (∀ f ∈ fs, cell ≤ cells f.name) ∧
      fs.Pairwise fun f g =>
        cells f.name + (p.partDraft (.function f)).countP Draft.isNew ≤ cells g.name := by
  induction fs generalizing start cell entries code with
  | nil => exact ⟨fun _ => 0, nofun, nofun, .nil⟩
  | cons f fs ih =>
    rw [List.map_cons, List.nodup_cons] at hn
    simp only [Function.blocks, f.shifts_block p.layout, Option.bind_eq_bind,
      Option.bind_eq_some_iff, Option.map_eq_some_iff, Option.pure_def, Option.some.injEq,
      Prod.mk.injEq, Prod.exists] at h
    obtain ⟨_, ⟨b, hb, rfl⟩, entries, rest, hrest, rfl, rfl⟩ := h
    rw [behind_shift] at hrest
    obtain ⟨cells, hplaces, hlow, hapart⟩ := ih hn.2 hrest
    -- no other function has the name of the first
    obtain ⟨cells', hfirst, hne⟩ : ∃ cells' : String → Nat, cells' f.name = cell ∧
        ∀ g ∈ fs, cells' g.name = cells g.name := by
      refine ⟨fun name => if name = f.name then cell else cells name, if_pos rfl, fun g hg => ?_⟩
      refine if_neg fun he => hn.1 ?_
      exact he ▸ List.mem_map_of_mem hg
    simp only [List.forall_mem_cons, List.pairwise_cons]
    refine ⟨cells', ⟨⟨[], b, rest, hb, List.mem_cons_self, ?_⟩, fun g hg => ?_⟩,
      ⟨Nat.le_of_eq hfirst.symm, fun g hg => ?_⟩, fun g hg => ?_, ?_⟩
    · rw [hfirst]
      rfl
    · obtain ⟨a, c, z, hc, hentry, rfl⟩ := hplaces g hg
      have hlength : start + (b.map (Draft.shift start cell) ++ a).length =
          start + b.length + a.length := by
        rw [List.length_append, List.length_map, Nat.add_assoc]
      refine ⟨b.map (Draft.shift start cell) ++ a, c, z, hc, ?_, ?_⟩
      · rw [hlength]
        exact List.mem_cons_of_mem _ hentry
      · rw [hlength, hne g hg, List.append_assoc, List.append_assoc, List.append_assoc]
    · rw [hne g hg]
      exact Nat.le_trans (Nat.le_add_right _ _) (hlow g hg)
    · have hdraft : p.partDraft (.function f) = b := partDraft_eq hb
      rw [hne g hg, hfirst, hdraft]
      exact hlow g hg
    · refine hapart.imp_of_mem fun hf hg hle => ?_
      rw [hne _ hf, hne _ hg]
      exact hle

structure Spread (p : Program) (code : Code) (entry cells : String → Nat) : Prop where
  draft : ∀ x ∈ p.parts, p.partBlock x p.layout = some (p.partDraft x)
  holds : ∀ x ∈ p.parts, code.Holds entry (x.base entry)
    ((p.partDraft x).map (Draft.shift (x.base entry) (x.base cells)))
  apart : p.parts.Pairwise fun x y =>
    x.base cells + (p.partDraft x).countP Draft.isNew ≤ y.base cells

/-- The parts of a compiled program are spread over its code. -/
theorem spread_of_compile {code : Code} (h : p.compile = .ok code) :
    ∃ entry cells, p.Spread code entry cells := by
  obtain ⟨entries, drafts, t, g⟩ := emitted_of_compile h
  have hdraft := g.draft_eq
  obtain ⟨b, fs, hb, hfs, rfl⟩ := draft_eq_some.1 hdraft
  rw [behind_layout] at hfs
  obtain ⟨cells, hplaces, hlow, hapart⟩ := exists_cells g.names hfs
  have hmain : p.partDraft .body = b ++ [fixed (.exit .accumulator)] :=
    partDraft_eq (Option.map_eq_some_iff.2 ⟨b, hb, rfl⟩)
  have hlinked := g.instructions
  refine ⟨fun name => (t.linker.address? name).getD 0, cells, ?_, ?_, ?_⟩
  · intro x hx
    obtain ⟨d, hd⟩ := draft_iff.1 ⟨_, hdraft⟩ x hx
    rw [partDraft_eq hd, hd]
  · refine List.forall_mem_cons.2 ⟨?_, List.forall_mem_map.2 fun f hf => ?_⟩
    · rw [hmain, Part.base, Part.base, Draft.map_shift_zero]
      exact Code.holds_of_append (a := []) (c := fs) hlinked
    · obtain ⟨x, c, y, hc, hentry, rfl⟩ := hplaces f hf
      have hdraft : p.partDraft (.function f) = c := partDraft_eq hc
      rw [hdraft, Part.base, Part.base, g.address_eq hentry]
      rw [← List.append_assoc, ← List.append_assoc] at hlinked
      rw [← List.length_append] at hlinked ⊢
      exact Code.holds_of_append hlinked
  · rw [parts, List.pairwise_cons, List.forall_mem_map, List.pairwise_map]
    refine ⟨fun f hf => ?_, hapart⟩
    rw [hmain, Part.base, Nat.zero_add]
    exact hlow f hf

end Program
end Sigil
