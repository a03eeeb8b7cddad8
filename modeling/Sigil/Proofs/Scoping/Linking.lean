import Mathlib.Data.List.Basic
import Sigil.Proofs.Draft.Program

/-!
A draft calls only functions that its place knows with their arities, so that all calls of a program
that has a draft can be linked.
-/
namespace Sigil

open Draft (fixed)

variable {L : Layout} {a b : List Draft}

def Layout.Declares (L : Layout) (code : List Draft) : Prop :=
  ∀ name, Draft.call name ∈ code → (L.arity? name).isSome

namespace Layout

@[simp] theorem declares_nil : L.Declares [] := nofun

@[simp] theorem declares_fixed (i : Instruction) : L.Declares (fixed i :: a) ↔ L.Declares a := by
  simp [Declares]

@[simp] theorem declares_call (name : String) :
    L.Declares (Draft.call name :: a) ↔ (L.arity? name).isSome ∧ L.Declares a := by
  simp [Declares]

@[simp] theorem declares_append : L.Declares (a ++ b) ↔ L.Declares a ∧ L.Declares b := by
  simp [Declares, or_imp, forall_and]

@[simp] theorem declares_map_fixed {α : Type} (f : α → Instruction) (xs : List α) :
    L.Declares (xs.map fun x => fixed (f x)) := by
  simp [Declares]

@[simp] theorem declares_drop (n : Nat) : L.Declares (Draft.drop n) := by
  unfold Draft.drop
  split <;> simp

end Layout

namespace Block

def Declared (block : Block) : Prop := ∀ L code, block L = some code → L.Declares code

theorem declared_literal (v : Value) : Declared (literal v) := by
  rintro L _ ⟨⟩
  simp

theorem declared_lookup (x : String) : Declared (lookup x) := by
  intro L code h
  obtain ⟨slot, -, rfl⟩ := Option.map_eq_some_iff.1 h
  simp [Draft.load]

theorem declared_assign {block : Block} (x : String) (hv : Declared block) :
    Declared (assign x block) := by
  intro L _ h
  obtain ⟨slot, -, code, hcode, rfl⟩ := assign_eq_some.1 h
  simpa [Draft.store] using hv _ _ hcode

theorem declared_not {block : Block} (ho : Declared block) : Declared (Block.not block) := by
  intro L _ h
  obtain ⟨code, hcode, rfl⟩ := not_eq_some.1 h
  simpa using ho _ _ hcode

theorem declared_values {blocks : List Block} (hb : ∀ block ∈ blocks, Declared block) :
    Declared (values blocks) := by
  induction blocks with
  | nil =>
    rintro L _ ⟨⟩
    simp
  | cons block blocks ih =>
    intro L _ h
    obtain ⟨first, hfirst, rest, hrest, rfl⟩ := values_cons_eq_some.1 h
    rw [List.forall_mem_cons] at hb
    -- the rest is placed where the same functions are declared
    have hcalls : L.Declares rest := (ih hb.2 _ _ hrest :)
    simpa [Draft.push, hcalls] using hb.1 _ _ hfirst

theorem declared_binary {l r : Block} (op : Operator) (target : Layout → Option (Option Int))
    (hl : Declared l) (hr : Declared r) : Declared (binary op target l r) := by
  intro L _ h
  obtain ⟨slot, -, x, hx, y, hy, rfl⟩ := binary_eq_some.1 h
  have hx' : L.Declares x := hl _ _ hx
  have hy' : L.Declares y := (hr _ _ hy :)
  cases slot <;> simp [Draft.push, Draft.load, Draft.store, hx', hy']

theorem declared_letIn {blocks : List Block} {block : Block} (names : List String)
    (hv : ∀ block ∈ blocks, Declared block) (hb : Declared block) :
    Declared (letIn names blocks block) := by
  intro L _ h
  obtain ⟨vs, hvs, -, code, hcode, rfl⟩ := letIn_eq_some.1 h
  have hcalls : L.Declares code := (hb _ _ hcode :)
  simpa [hcalls] using declared_values hv _ _ hvs

theorem declared_concat {blocks : List Block} (hp : ∀ block ∈ blocks, Declared block) :
    Declared (concat blocks) := by
  intro L _ h
  obtain ⟨vs, hvs, rfl⟩ := concat_eq_some.1 h
  simpa [join] using declared_values hp _ _ hvs

theorem declared_arms {mode : Mode} {result : Int} {conditions branches : List Block}
    {code : Nat → List Draft} (hc : ∀ block ∈ conditions, Declared block)
    (hb : ∀ block ∈ branches, Declared block)
    (h : arms mode result conditions branches L = some code) (exit : Nat) :
    L.Declares (code exit) := by
  induction conditions generalizing L branches code with
  | nil =>
    simp only [arms, Option.some.injEq] at h
    subst h
    simp
  | cons condition conditions ih =>
    cases branches with
    | nil =>
      simp only [arms, Option.some.injEq] at h
      subst h
      simp
    | cons branch branches =>
      obtain ⟨test, htest, code, hcode, rest, hrest, rfl⟩ := arms_cons_eq_some.1 h
      rw [List.forall_mem_cons] at hc hb
      have htest' : L.Declares test := hc.1 _ _ htest
      have hcode' : L.Declares code := (hb.1 _ _ hcode :)
      have hrest' : L.Declares (rest exit) := (ih hc.2 hb.2 hrest :)
      by_cases hm : mode = .first <;>
        simp [leave, hm, Draft.jumpUnless, Draft.store, htest', hcode', hrest']

theorem declared_select {conditions branches : List Block} (mode : Mode)
    (hc : ∀ block ∈ conditions, Declared block) (hb : ∀ block ∈ branches, Declared block) :
    Declared (select mode conditions branches) := by
  intro L _ h
  obtain ⟨code, hcode, rfl⟩ := select_eq_some.1 h
  have hcalls : ∀ exit, L.Declares (code exit) := (declared_arms hc hb hcode :)
  simp [pushZero, Draft.load, hcalls]

theorem declared_loop {c b : Block} (hc : Declared c) (hb : Declared b) : Declared (loop c b) := by
  intro L _ h
  obtain ⟨test, htest, code, hcode, rfl⟩ := loop_eq_some.1 h
  have htest' : L.Declares test := (hc _ _ htest :)
  have hcode' : L.Declares code := (hb _ _ hcode :)
  simp [pushZero, Draft.jumpUnless, Draft.store, Draft.load, htest', hcode']

theorem declared_call {blocks : List Block} (name : String)
    (ha : ∀ block ∈ blocks, Declared block) : Declared (call name blocks) := by
  intro L _ h
  obtain ⟨harity, vs, hvs, rfl⟩ := call_eq_some.1 h
  simpa [harity] using declared_values ha _ _ hvs

end Block

mutual

theorem Expr.declared_block : ∀ e : Expr, e.block.Declared
  | .literal v => Block.declared_literal v
  | .variable x => Block.declared_lookup x
  | .assign x value => Block.declared_assign x (declared_block value)
  | .letIn names values body =>
    Block.declared_letIn names (declared_blocks values) (declared_block body)
  | .loop condition body => Block.declared_loop (declared_block condition) (declared_block body)
  | .select mode conditions branches =>
    Block.declared_select mode (declared_blocks conditions) (declared_blocks branches)
  | .call name arguments => Block.declared_call name (declared_blocks arguments)
  | .not operand => Block.declared_not (declared_block operand)
  | .concat parts => Block.declared_concat (declared_blocks parts)
  | .binary op left right =>
    Block.declared_binary op (Block.updateTarget op left) (declared_block left)
      (declared_block right)

theorem Expr.declared_blocks : ∀ es : List Expr, ∀ block ∈ Expr.blocks es, block.Declared
  | [] => nofun
  | e :: es => List.forall_mem_cons.2 ⟨declared_block e, declared_blocks es⟩

end

theorem Function.declared_block (f : Function) : f.block.Declared := by
  intro L _ h
  obtain ⟨-, code, hcode, rfl⟩ := block_eq_some.1 h
  have hcalls : L.Declares code := (f.body.declared_block _ _ hcode :)
  simpa using hcalls

theorem Function.declared_blocks {fs : List Function} {entries : List (String × Nat)}
    {code : List Draft} (h : Function.blocks fs L = some (entries, code)) : L.Declares code := by
  induction fs generalizing L entries code with
  | nil =>
    cases h
    exact Layout.declares_nil
  | cons f fs ih =>
    obtain ⟨first, hfirst, entries', rest, hrest, -, rfl⟩ := blocks_cons_eq_some.1 h
    have hcalls : L.Declares rest := (ih hrest :)
    exact Layout.declares_append.2 ⟨f.declared_block _ _ hfirst, hcalls⟩

/-- Linking succeeds where every function that is called has an address. -/
theorem Linker.linkSites_ne_error {l : Linker} {code code' : Code} {before : List Instruction}
    {drafts : List Draft} {e : LinkError}
    (hc : code.instructions.toList = before ++ drafts.map Draft.unlinked)
    (ha : ∀ name, Draft.call name ∈ drafts → (l.address? name).isSome) :
    l.linkSites (Draft.sites before.length drafts) code ≠ .error e code' := by
  -- the drafts that are linked already join the instructions before
  induction drafts generalizing before code with
  | nil => exact nofun
  | cons d drafts ih =>
    have ha' : ∀ name, Draft.call name ∈ drafts → (l.address? name).isSome :=
      fun name hname => ha name (List.mem_cons_of_mem _ hname)
    intro h
    cases d with
    | fixed i =>
      have hcons : before.length + 1 = (before ++ [i]).length := by simp
      rw [Draft.sites, hcons] at h
      exact ih (by simpa [Draft.unlinked, Draft.link] using hc) ha' h
    | call name =>
      obtain ⟨target, htarget⟩ := Option.isSome_iff_exists.1 (ha name List.mem_cons_self)
      have hget : code.get? before.length = some (.call 0) := by
        simp [Code.get?, ← Array.getElem?_toList, hc, Draft.unlinked, Draft.link]
      have hpatch := Code.patch?_eq_some.2 ⟨_, .call target, hget, rfl, rfl⟩
      simp only [Draft.sites, linkSites, htarget] at h
      rcases bind_eq_error.1 h with h | ⟨_, _, hg, h⟩
      · cases h
      · cases hg
        simp only [hpatch] at h
        rcases bind_eq_error.1 h with h | ⟨_, _, hset, h⟩
        · cases h
        · cases hset
          have hcons : before.length + 1 = (before ++ [Instruction.call target]).length := by simp
          rw [hcons] at h
          exact ih (by simp [hc]) ha' h

namespace Program

variable {p : Program} {entries : List (String × Nat)} {code : List Draft} {s t : Lowering}

theorem mem_names_of_arity {name : String} (h : (p.arity? name).isSome) :
    name ∈ p.functions.map Function.name := by
  rw [arity?, Option.isSome_map, List.find?_isSome] at h
  obtain ⟨f, hf, hname⟩ := h
  exact List.mem_map.2 ⟨f, hf, of_decide_eq_true hname⟩

theorem Drafted.address_isSome (h : p.Drafted .start entries code s) {name : String}
    (hname : Draft.call name ∈ code) : (s.linker.address? name).isSome := by
  obtain ⟨b, rest, hb, hrest, rfl⟩ := draft_eq_some.1 h.draft_eq
  have hmain : p.layout.Declares b := p.body.declared_block _ _ hb
  have hfunctions : p.layout.Declares rest := (Function.declared_blocks hrest :)
  have hcalls : p.layout.Declares (b ++ [fixed (.exit .accumulator)] ++ rest) := by
    simp [hmain, hfunctions]
  have hkeys : entries.map Prod.fst = p.functions.map Function.name := Function.entries_blocks hrest
  have hmem : name ∈ entries.map Prod.fst := hkeys ▸ mem_names_of_arity (hcalls name hname)
  obtain ⟨⟨_, address⟩, hentry, rfl⟩ := List.mem_map.1 hmem
  have hn : (entries.map Prod.fst).Nodup := hkeys ▸ h.names
  have haddresses : s.linker.addresses = entries.reverse := h.addresses.trans (List.append_nil _)
  rw [Linker.address?, haddresses, lookup_reverse hn, lookup_of_mem hn hentry]
  rfl

/-- Every call of a program that has a draft can be linked. -/
theorem Drafted.link_ne_error (h : p.Drafted .start entries code s) {e : SemanticError} :
    Lowering.link s ≠ .error e t := by
  intro hl
  unfold Lowering.link Linker.link at hl
  cases hsites : s.linker.linkSites s.linker.sites s.code with
  | ok _ code' =>
    simp only [hsites] at hl
    cases hl
  | error e' code' =>
    have hcode : s.code.instructions.toList = [] ++ code.map Draft.unlinked := h.instructions
    rw [h.sites] at hsites
    exact Linker.linkSites_ne_error hcode (fun _ => h.address_isSome) hsites

end Program

end Sigil
