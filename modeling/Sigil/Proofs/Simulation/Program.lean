import Sigil.Proofs.Simulation.Call

/-!
Compiled programs do what the evaluation of their trees says, by induction on the depth of calls and
on trees.
-/
namespace Sigil

open Machine

namespace Simulation

variable {code : Code} {entry : String → Nat} {arity? : String → Option Nat} {n : Nat}
  {callee : String → List Value → Outcome Value}

mutual

theorem simulates_expr (hcall : SimulatesCalls code entry arity? n callee) :
    ∀ e : Expr, Simulates code entry arity? n e.block (e.eval callee n)
  | .literal v => simulates_literal v
  | .variable x => simulates_lookup x
  | .assign x value => simulates_assign x (simulates_expr hcall value)
  | .letIn names values body =>
    simulates_letIn names (simulates_all hcall values) (simulates_expr hcall body)
  | .loop condition body => simulates_loop (simulates_expr hcall condition) (simulates_expr hcall body)
  | .select mode conditions branches =>
    simulates_select mode (simulates_all hcall conditions) (simulates_all hcall branches)
  | .call name arguments => simulates_call hcall name (simulates_all hcall arguments)
  | .not operand => simulates_not (simulates_expr hcall operand)
  | .concat parts => simulates_concat (simulates_all hcall parts)
  | .binary op left right =>
    simulates_binary op left (simulates_expr hcall left) (simulates_expr hcall right)

theorem simulates_all (hcall : SimulatesCalls code entry arity? n callee) :
    ∀ es : List Expr, List.Forall₂ (Simulates code entry arity? n) (Expr.blocks es)
      (Expr.evalAll callee n es)
  | [] => .nil
  | e :: es => .cons (simulates_expr hcall e) (simulates_all hcall es)

end

theorem simulates_calls {p : Program} (hp : p.Placed code entry) (n : Nat) :
    SimulatesCalls code entry p.arity? n (p.call n) := by
  induction n with
  | zero =>
    intro name vs Γ ρ pc offset m _ _ _ _ _
    exact ⟨0, m, Nat.le_refl 0, .refl code m⟩
  | succ n ih =>
    intro name vs Γ ρ pc offset m harity hcall ha hget hbelow
    obtain ⟨f, hf, hlen⟩ := Option.map_eq_some_iff.1 harity
    obtain rfl : f.name = name := by simpa using List.find?_some hf
    obtain ⟨cell, b, hb, hcode⟩ := hp.function f (List.mem_of_find?_eq_some hf)
    simp only [Program.call, hf]
    exact simulates_function hb rfl rfl (simulates_expr ih f.body) hlen hcode hcall ha hget hbelow

/-- A compiled program halts with the value of its tree. -/
theorem meets_program {p : Program} (hp : p.Placed code entry) (n : Nat) (config : Config) :
    Meets code n (start config) (p.eval n) fun v m => m.status = .halted ∧ m.accumulator = v := by
  obtain ⟨b, hb, hcode⟩ := hp.body
  obtain ⟨hc1, hc2⟩ := Code.holds_append.1 hcode
  have hs : Scoped p.arity? p.layout [] :=
    ⟨rfl, fun x t ht => by simp [Program.layout] at ht, .nil, by simp⟩
  have ha : At [] [] p.layout.start p.layout.offset (start config) :=
    ⟨rfl, rfl, rfl, rfl, Int.le_refl 0, .nil⟩
  refine Meets.run' (simulates_expr (simulates_calls hp n) p.body _ _ _ _ b hb hs ha hc1)
    fun r m h => ?_
  have hexit := leads_exit h.here.running (h.here.get (Code.holds_cons.1 hc2).1)
  exact ⟨1, _, hexit, rfl, h.accumulator⟩

end Simulation
end Sigil
