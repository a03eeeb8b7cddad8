import Sigil.Proofs.Draft.Bounds
import Sigil.Proofs.Draft.Calls
import Sigil.Proofs.Draft.Program

/-!
Programs compiled one after the other. Functions and their addresses outlive the program that declares
them, so that a later program can call them.
-/
namespace Sigil

structure Compilation where
  program : Program
  code : Code

inductive Session : List Compilation → Lowering → Prop
  | start : Session [] .start
  | next {cs : List Compilation} {p : Program} {code : Code} {s t : Lowering} :
      Session cs s → p.lower s = .ok code t → Session (⟨p, code⟩ :: cs) t

namespace Program

def names (p : Program) : List String := p.functions.map Function.name

variable {p : Program} {s t : Lowering} {entries : List (String × Nat)} {drafts : List Draft}
  {code : Code}

theorem Emitted.names_eq (h : p.Emitted s entries drafts code t) :
    entries.map Prod.fst = p.names := by
  obtain ⟨b, rest, -, hrest, -⟩ := draftAt_eq_some.1 h.draft
  exact Function.entries_blocks hrest

theorem Emitted.callees_eq (h : p.Emitted s entries drafts code t) :
    Draft.callees drafts = p.callees := by
  obtain ⟨b, rest, hb, hrest, rfl⟩ := draftAt_eq_some.1 h.draft
  simp [Program.callees, p.body.calls_block _ _ hb, Function.calls_blocks hrest]

/-- No draft of a program has a call whose target is known already. -/
theorem Emitted.not_call (h : p.Emitted s entries drafts code t) (target : Nat) :
    Draft.fixed (.call target) ∉ drafts := by
  obtain ⟨b, rest, hb, hrest, rfl⟩ := draftAt_eq_some.1 h.draft
  intro hmem
  simp only [List.mem_append, List.mem_singleton, Draft.fixed.injEq, reduceCtorEq, or_false] at hmem
  rcases hmem with hmem | hmem
  · exact p.body.bounded_block _ _ hb _ hmem
  · exact Function.bounded_blocks hrest _ hmem

/-- Every call in the code is one of the tree, and leads to the address of the function. -/
theorem Emitted.target (h : p.Emitted s entries drafts code t) {site target : Nat}
    (hcall : code.get? site = some (.call target)) :
    ∃ name ∈ p.callees, t.linker.address? name = some target := by
  rw [Code.get?, ← Array.getElem?_toList, h.instructions, List.getElem?_map,
    Option.map_eq_some_iff] at hcall
  obtain ⟨d, hd, hlink⟩ := hcall
  have hmem := List.mem_of_getElem? hd
  cases d with
  | fixed i =>
    cases hlink
    exact absurd hmem (h.not_call target)
  | call name =>
    obtain ⟨address, haddress⟩ := Option.isSome_iff_exists.1 (h.known name hmem)
    simp only [Draft.link, haddress, Option.getD_some, Instruction.call.injEq] at hlink
    subst hlink
    exact ⟨name, h.callees_eq ▸ Draft.mem_callees.2 hmem, haddress⟩

/-- The address of a function that the program declares is where its block starts. -/
theorem Emitted.label_of_mem (h : p.Emitted s entries drafts code t) {name : String} {target : Nat}
    (hname : name ∈ p.names) (haddress : t.linker.address? name = some target) :
    (target, name) ∈ code.labels := by
  have hn : (entries.map Prod.fst).Nodup := h.names_eq ▸ h.names
  obtain ⟨⟨_, address⟩, hentry, rfl⟩ := List.mem_map.1 (h.names_eq ▸ hname)
  have hown : entries.reverse.lookup _ = some address :=
    (lookup_reverse hn _).trans (lookup_of_mem hn hentry)
  rw [Linker.address?, h.addresses, List.lookup_append, hown, Option.some_or,
    Option.some.injEq] at haddress
  subst haddress
  rw [h.labels]
  exact List.mem_map_of_mem hentry

/-- The address of any other function was known before. -/
theorem Emitted.address_of_not_mem (h : p.Emitted s entries drafts code t) {name : String}
    (hname : name ∉ p.names) : t.linker.address? name = s.linker.address? name := by
  have hnone : entries.reverse.lookup name = none := by
    refine List.lookup_eq_none_iff.2 fun e he => ?_
    have hmem : e.1 ∈ p.names := h.names_eq ▸ List.mem_map_of_mem (List.mem_reverse.1 he)
    simp only [bne_iff_ne, ne_eq]
    rintro rfl
    exact hname hmem
  rw [Linker.address?, h.addresses, List.lookup_append, hnone, Option.none_or]
  rfl

end Program

namespace Session

variable {cs : List Compilation} {s : Lowering}

theorem idle (h : Session cs s) : s.Idle := by
  induction h with
  | start => exact Lowering.idle_start
  | next _ hlower ih =>
    obtain ⟨entries, drafts, hemitted⟩ := Program.emitted_of_lower ih hlower
    exact hemitted.idle

/-- The functions that are known are those that a program of the session declares. -/
theorem arity_isSome (h : Session cs s) {name : String} :
    (s.symbols.arity? name).isSome ↔ ∃ c ∈ cs, name ∈ c.program.names := by
  induction h with
  | start => simp [Lowering.start, Symbols.empty, Symbols.arity?]
  | @next cs p code s t hs hlower ih =>
    obtain ⟨entries, drafts, hemitted⟩ := Program.emitted_of_lower hs.idle hlower
    have hown : (List.lookup name (p.functions.map fun f => (f.name, f.parameters.length)).reverse
        ).isSome ↔ name ∈ p.names := by
      rw [Program.lookup_arities hemitted.names, Program.arity?, Option.isSome_map,
        List.find?_isSome]
      simp [Program.names]
    have harity : t.symbols.arity? name = (List.lookup name
        (p.functions.map fun f => (f.name, f.parameters.length)).reverse).or
          (s.symbols.arity? name) := by
      rw [Symbols.arity?, hemitted.functions, List.lookup_append]
      rfl
    rw [harity, Option.isSome_or, Bool.or_eq_true, hown, ih]
    simp

/-- No function is declared twice in a session. -/
theorem not_declared (h : Session cs s) {p : Program} {code : Code} {t : Lowering}
    (hlower : p.lower s = .ok code t) {name : String} (hname : name ∈ p.names) :
    ∀ c ∈ cs, name ∉ c.program.names := by
  intro c hc hcname
  obtain ⟨entries, drafts, hemitted⟩ := Program.emitted_of_lower h.idle hlower
  obtain ⟨f, hf, rfl⟩ := List.mem_map.1 hname
  have hknown := h.arity_isSome.2 ⟨c, hc, hcname⟩
  rw [hemitted.fresh f hf] at hknown
  cases hknown

theorem declared_of_address (h : Session cs s) {name : String} {target : Nat}
    (haddress : s.linker.address? name = some target) : ∃ c ∈ cs, name ∈ c.program.names := by
  induction h with
  | start => cases haddress
  | @next cs p code s t hs hlower ih =>
    obtain ⟨entries, drafts, hemitted⟩ := Program.emitted_of_lower hs.idle hlower
    by_cases hname : name ∈ p.names
    · exact ⟨_, List.mem_cons_self, hname⟩
    · rw [hemitted.address_of_not_mem hname] at haddress
      obtain ⟨c, hc, hcname⟩ := ih haddress
      exact ⟨c, List.mem_cons_of_mem _ hc, hcname⟩

/-- A known address is where the block starts in the code of the program that declares it. -/
theorem label_of_address (h : Session cs s) {name : String} {target : Nat}
    (haddress : s.linker.address? name = some target) :
    ∀ c ∈ cs, name ∈ c.program.names → (target, name) ∈ c.code.labels := by
  induction h with
  | start => cases haddress
  | @next cs p code s t hs hlower ih =>
    obtain ⟨entries, drafts, hemitted⟩ := Program.emitted_of_lower hs.idle hlower
    intro c hc hcname
    rcases List.mem_cons.1 hc with rfl | hc
    · exact hemitted.label_of_mem hcname haddress
    · have hname : name ∉ p.names := fun hname => hs.not_declared hlower hname c hc hcname
      rw [hemitted.address_of_not_mem hname] at haddress
      exact ih haddress c hc hcname

/-- The calls of every program keep leading to the addresses of their functions. -/
theorem address_of_call (h : Session cs s) {c : Compilation} (hc : c ∈ cs) {site target : Nat}
    (hcall : c.code.get? site = some (.call target)) :
    ∃ name ∈ c.program.callees, s.linker.address? name = some target := by
  induction h with
  | start => cases hc
  | @next cs p code s t hs hlower ih =>
    obtain ⟨entries, drafts, hemitted⟩ := Program.emitted_of_lower hs.idle hlower
    rcases List.mem_cons.1 hc with rfl | hc
    · exact hemitted.target hcall
    · obtain ⟨name, hname, haddress⟩ := ih hc
      obtain ⟨d, hd, hdname⟩ := hs.declared_of_address haddress
      have hnew : name ∉ p.names := fun hnew => hs.not_declared hlower hnew d hd hdname
      exact ⟨name, hname, (hemitted.address_of_not_mem hnew).trans haddress⟩

end Session
end Sigil
