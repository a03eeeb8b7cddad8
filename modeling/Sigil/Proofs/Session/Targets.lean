import Sigil.Proofs.Session.Basic

/-!
Where the calls of a session lead: to the function they name, in the code of the program that declares
it. That is the same code only if the program declares the function itself.
-/
namespace Sigil

/-- Every call leads to the start of a function in the same code. -/
def Code.SelfContained (code : Code) : Prop :=
  ∀ site target, code.get? site = some (.call target) → ∃ name, (target, name) ∈ code.labels

namespace Session

/-- Every call of a session leads to where the function starts in the code of the program that declares
it, so that the code of a program that declares all functions it calls is self-contained. -/
theorem calls_lead_to_declarations {cs : List Compilation} {s : Lowering} (h : Session cs s)
    {c : Compilation} (hc : c ∈ cs) :
    (∀ site target, c.code.get? site = some (.call target) → ∃ name ∈ c.program.callees,
      (∃ d ∈ cs, name ∈ d.program.names) ∧
        ∀ d ∈ cs, name ∈ d.program.names → (target, name) ∈ d.code.labels) ∧
    ((∀ name ∈ c.program.callees, name ∈ c.program.names) → c.code.SelfContained) := by
  have hlead : ∀ site target, c.code.get? site = some (.call target) →
      ∃ name ∈ c.program.callees, (∃ d ∈ cs, name ∈ d.program.names) ∧
        ∀ d ∈ cs, name ∈ d.program.names → (target, name) ∈ d.code.labels := by
    intro site target hcall
    obtain ⟨name, hname, haddress⟩ := h.address_of_call hc hcall
    exact ⟨name, hname, h.declared_of_address haddress, h.label_of_address haddress⟩
  refine ⟨hlead, fun hown site target hcall => ?_⟩
  obtain ⟨name, hname, -, hlabel⟩ := hlead site target hcall
  exact ⟨name, hlabel c hc (hown name hname)⟩

def doubling : Program :=
  ⟨[⟨"f", ["x"], .binary (.arithmetic .add) (.variable "x") (.variable "x")⟩],
    .call "f" [.literal .zero]⟩

def borrowing : Program := ⟨[], .call "f" [.literal .zero]⟩

/-- The first program has its own function, and the second one calls that, in the code of the first. -/
theorem borrowing_leads_to_doubling : ∃ c t d u, doubling.lower .start = .ok c t ∧
    borrowing.lower t = .ok d u ∧ c.SelfContained ∧ d.get? 3 = some (.call 6) ∧
      ∃ name, (6, name) ∈ c.labels := by
  obtain ⟨c, t, hc⟩ : ∃ c t, doubling.lower .start = .ok c t := ⟨_, _, rfl⟩
  obtain ⟨d, u, hd⟩ : ∃ d u, borrowing.lower t = .ok d u := by
    cases hc
    exact ⟨_, _, rfl⟩
  have hcall : d.get? 3 = some (.call 6) := by
    cases hc
    cases hd
    rfl
  have hs : Session [⟨borrowing, d⟩, ⟨doubling, c⟩] u := (Session.start.next hc).next hd
  have hfirst := calls_lead_to_declarations hs (List.mem_cons_of_mem _ List.mem_cons_self)
  have hsecond := calls_lead_to_declarations hs List.mem_cons_self
  obtain ⟨name, hname, -, hlabel⟩ := hsecond.1 3 6 hcall
  have hf : name = "f" := by simpa [borrowing, Program.callees, Expr.callees, Expr.calleesOf] using hname
  refine ⟨c, t, d, u, hc, hd, hfirst.2 ?_, hcall, name, ?_⟩
  · simp [doubling, Program.callees, Expr.callees, Expr.calleesOf, Program.names]
  · exact hlabel _ (List.mem_cons_of_mem _ List.mem_cons_self) (by simp [hf, doubling, Program.names])

/-- Not every code of a session is self-contained: the second program calls an address that its code
does not reach. -/
theorem not_selfContained : ¬ ∀ cs s, Session cs s → ∀ c ∈ cs, c.code.SelfContained := by
  intro h
  obtain ⟨c, t, hc⟩ : ∃ c t, doubling.lower .start = .ok c t := ⟨_, _, rfl⟩
  obtain ⟨d, u, hd, hcall, hlabels⟩ : ∃ d u, borrowing.lower t = .ok d u ∧
      d.get? 3 = some (.call 6) ∧ d.labels = [] := by
    cases hc
    exact ⟨_, _, rfl, rfl, rfl⟩
  obtain ⟨name, hname⟩ := h _ _ ((Session.start.next hc).next hd) _ List.mem_cons_self 3 6 hcall
  rw [hlabels] at hname
  cases hname

end Session
end Sigil
