import Sigil.Proofs.Session.Additions
import Sigil.Proofs.Session.Basic
import Sigil.Proofs.Session.Reuse

/-!
Programs compiled one after the other do not meet, as long as they share no functions: each has the code
that it has by itself, with the heap cells behind those of the programs before it. A program takes one
cell for every concatenation it is compiled from.
-/
namespace Sigil

def Program.concats (p : Program) : Nat :=
  p.body.concats + (p.functions.map fun f => f.body.concats).sum

namespace Lowering

variable {s t : Lowering}

theorem nextHeap_of_function {f : Function} (h : f.lower s = .ok () t) :
    t.nextHeap = s.nextHeap + f.body.concats := by
  simp only [Function.lower, bind_eq_ok] at h
  obtain ⟨_, _, h1, _, s1, h2, ids, s2, h3, _, s3, h4, _, s4, h5, _, s5, h6, h7⟩ := h
  cases h1
  cases h2
  obtain ⟨-, rfl⟩ := pushScope_bindSlots h3 h4
  cases h6
  cases h7
  exact (raises_expr f.body _ _ _ h5).nextHeap

theorem nextHeap_of_functions {fs : List Function} (h : fs.forM Function.lower s = .ok () t) :
    t.nextHeap = s.nextHeap + (fs.map fun f => f.body.concats).sum := by
  induction fs generalizing s with
  | nil =>
    cases h
    rfl
  | cons f fs ih =>
    obtain ⟨_, s1, h1, h2⟩ := bind_eq_ok.1 h
    rw [ih h2, nextHeap_of_function h1, List.map_cons, List.sum_cons, Nat.add_assoc]

theorem nextHeap_of_lower {p : Program} {code : Code} (h : p.lower s = .ok code t) :
    t.nextHeap = s.nextHeap + p.concats := by
  simp only [Program.lower, bind_eq_ok] at h
  obtain ⟨_, s1, h1, _, s2, h2, _, s3, h3, _, s4, h4, _, s5, h5, h6⟩ := h
  obtain ⟨-, -, lastId, -, rfl⟩ := register_all_eq_ok h1
  have hbody := (raises_expr p.body _ _ _ h2).nextHeap
  have hfunctions := nextHeap_of_functions h4
  cases h3
  cases h6
  rw [(link_eq_ok h5).2]
  exact hfunctions.trans ((congrArg (· + _) hbody).trans (Nat.add_assoc _ _ _))

end Lowering

def outcome {ε σ α : Type} : EStateM.Result ε σ α → Except ε α
  | .ok a _ => .ok a
  | .error e _ => .error e

theorem outcome_eq_ok {ε σ α : Type} {r : EStateM.Result ε σ α} {a : α} (h : outcome r = .ok a) :
    ∃ s, r = .ok a s := by
  cases r with
  | ok b s =>
    cases h
    exact ⟨s, rfl⟩
  | error e s => cases h

theorem Alike.outcome_eq {ε σ τ α β : Type} {Q : σ → τ → Prop} {f : α → β}
    {r : EStateM.Result ε σ α} {r' : EStateM.Result ε τ β} (h : Alike Q (fun a b => b = f a) Eq r r') :
    outcome r' = (outcome r).map f := by
  cases h with
  | ok hv _ => exact congrArg Except.ok hv
  | error he => exact congrArg Except.error he.symm

theorem Program.compile_eq (p : Program) : p.compile = outcome (p.lower .start) := by
  unfold Program.compile
  cases p.lower .start <;> rfl

namespace Session

open Lowering

variable {cs : List Compilation} {s : Lowering}

def cells (cs : List Compilation) : Nat := (cs.map fun c => c.program.concats).sum

theorem nextHeap_eq (h : Session cs s) : s.nextHeap = cells cs := by
  induction h with
  | start => rfl
  | next _ hlower ih =>
    rw [nextHeap_of_lower hlower, ih, cells, cells, List.map_cons, List.sum_cons, Nat.add_comm]

/-- For functions that were not declared so far, lowering goes on as from the start. -/
theorem mirrors_start (h : Session cs s) {N : String → Prop}
    (hN : ∀ name, N name → ∀ c ∈ cs, name ∉ c.program.names) : Mirrors N (cells cs) .start s where
  code := h.idle.code.trans Code.rename_empty.symm
  sites := h.idle.sites
  named := nofun
  address := fun name hname => by
    refine Option.eq_none_iff_forall_ne_some.2 fun target haddress => ?_
    obtain ⟨c, hc, hcname⟩ := h.declared_of_address haddress
    exact hN name hname c hc hcname
  arity := fun name hname => by
    refine Option.not_isSome_iff_eq_none.1 fun hknown => ?_
    obtain ⟨c, hc, hcname⟩ := h.arity_isSome.1 hknown
    exact hN name hname c hc hcname
  frames := by
    rw [frames, h.idle.scopes]
    rfl
  offset := h.idle.offset
  nextHeap := h.nextHeap_eq.trans (Nat.zero_add _).symm
  keyed := ⟨idle_start.keyed, h.idle.keyed⟩

/-- Between programs no scope is open. -/
theorem depth_eq (h : Session cs s) : s.symbols.depth = 0 :=
  congrArg List.length h.idle.scopes

/-- Behind programs that were compiled before, a program with functions of its own fails as it does by
itself, or has the code that it has by itself, with the heap cells further on. -/
theorem compiles_as_alone (h : Session cs s) {p : Program}
    (hfresh : ∀ name ∈ p.names, ∀ c ∈ cs, name ∉ c.program.names)
    (hown : ∀ name ∈ p.callees, name ∈ p.names) :
    outcome (p.lower s) = p.compile.map (Code.rename (· + cells cs)) ∧ s.symbols.depth = 0 ∧
      ∀ code t, p.lower s = .ok code t → t.symbols.depth = 0 := by
  have hmirrored : Mirrored (· ∈ p.names) (cells cs) (Renamed (· + cells cs)) p.lower p.lower :=
    mirrored_program (fun _ hname => hname) hown
  have halike := hmirrored .start s (h.mirrors_start hfresh)
  refine ⟨?_, h.depth_eq, fun code t hlower => (h.next hlower).depth_eq⟩
  rw [p.compile_eq]
  exact halike.outcome_eq

def marking : Program :=
  ⟨[⟨"mark", ["x"], .concat [.variable "x", .literal (.string "!")]⟩],
    .call "mark" [.literal (.string "a")]⟩

def joining : Program :=
  ⟨[⟨"join", ["x"], .concat [.variable "x", .concat [.variable "x"]]⟩],
    .call "join" [.literal (.string "b")]⟩

/-- The second program has the code that it has by itself, with each cell one further on. -/
theorem joining_behind_marking : ∃ c t d u, marking.lower .start = .ok c t ∧
    joining.compile = .ok d ∧ joining.lower t = .ok (d.rename (· + 1)) u ∧ u.symbols.depth = 0 ∧
      d.get? 10 = some (.new 0) ∧ d.get? 17 = some (.new 1) := by
  obtain ⟨c, t, hc⟩ : ∃ c t, marking.lower .start = .ok c t := ⟨_, _, rfl⟩
  obtain ⟨d, hd, hnew, hnew'⟩ : ∃ d, joining.compile = .ok d ∧ d.get? 10 = some (.new 0) ∧
      d.get? 17 = some (.new 1) := ⟨_, rfl, rfl, rfl⟩
  have hs : Session [⟨marking, c⟩] t := .next .start hc
  have hfresh : ∀ name ∈ joining.names, ∀ m ∈ [(⟨marking, c⟩ : Compilation)],
      name ∉ m.program.names := by
    simp [joining, marking, Program.names]
  have hown : ∀ name ∈ joining.callees, name ∈ joining.names := by
    simp [joining, Program.callees, Expr.callees, Expr.calleesOf, Program.names]
  obtain ⟨hsame, -, hdepth⟩ := compiles_as_alone hs hfresh hown
  rw [hd] at hsame
  obtain ⟨u, hu⟩ := outcome_eq_ok hsame
  exact ⟨c, t, d, u, hc, hd, hu, hdepth _ _ hu, hnew, hnew'⟩

end Session
end Sigil
