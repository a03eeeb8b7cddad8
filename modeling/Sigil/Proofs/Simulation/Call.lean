import Sigil.Proofs.Simulation.Control

/-!
Calls. The caller pushes the arguments twice, and the callee has the upper ones right below its frame
base as its parameters.
-/
namespace Sigil

open Machine

/-- Above the frame base of the callee is what was above the top of the caller. -/
theorem Stack.get?_pushFrame {s : Stack} {offset : Int} (h : (s.height : Int) = s.base + offset)
    (t : Int) : s.pushFrame.get? t = s.get? (offset + t) := by
  refine Option.ext fun v => ?_
  rw [get?_eq_some, get?_eq_some]
  refine exists_congr fun i => and_congr_left fun _ => ?_
  simp only [height] at h
  simp only [pushFrame]
  omega

theorem parameterSlots_eq (L : Layout) (k : Nat) :
    parameterSlots k = Layout.slots { L with offset := -(k : Int) } k := by
  refine List.map_congr_left fun i _ => ?_
  show (i : Int) - k = -k + i
  omega

theorem Scoped.parameters {arity? : String → Option Nat} {L : Layout} (harity : L.arity? = arity?)
    (hslot : L.slot? = fun _ => none) (names : List String) :
    Scoped arity? (L.grounded.bind names (parameterSlots names.length))
      (names.zip (parameterSlots names.length)) := by
  have h : Scoped arity? { L with offset := -(names.length : Int) } [] :=
    ⟨harity, fun x t ht => by simp [hslot] at ht, .nil, by simp⟩
  have hb : Scoped arity? _ (names.zip (Layout.slots _ names.length) ++ []) := h.bind
  have hraised : Layout.raised { L with offset := -(names.length : Int) } names.length = L.grounded := by
    simp only [Layout.raised, Layout.grounded]
    congr 1
    omega
  rwa [hraised, ← parameterSlots_eq, List.append_nil] at hb

namespace Simulation

variable {code : Code} {entry : String → Nat} {arity? : String → Option Nat} {n : Nat}

variable (code entry arity? n) in
def SimulatesCalls (callee : String → List Value → Outcome Value) : Prop :=
  ∀ name vs Γ ρ pc offset m, arity? name = some vs.length →
    code.get? pc = some (.call (entry name)) → At Γ ρ pc offset m →
    (∀ (i : Nat) v, vs[i]? = some v → m.stack.get? (offset - vs.length + i) = some v) →
    (∀ t ∈ Γ.map Prod.snd, t < offset - vs.length) →
    Meets code n m (callee name vs) fun v m' =>
      At Γ ρ (pc + 1) offset m' ∧ m'.accumulator = v ∧
        ∃ S : List Int, (∀ t ∈ S, offset - vs.length ≤ t) ∧ Frame S m m'

/-- The second copy of the arguments. -/
theorem leads_window {Γ : List (String × Int)} {ρ : Env} {pc : Nat} {offset : Int} {m : Machine}
    {slots : List Int} {vs : List Value} (ha : At Γ ρ pc offset m) (hl : slots.length = vs.length)
    (hget : ∀ (i : Nat) t v, slots[i]? = some t → vs[i]? = some v → m.stack.get? t = some v)
    (hc : code.Holds entry pc (slots.map fun slot => .fixed (.push (.stack slot)))) :
    ∃ k m', Leads code k m m' ∧ At Γ ρ (pc + slots.length) (offset + slots.length) m' ∧
      (∀ (i : Nat) v, vs[i]? = some v → m'.stack.get? (offset + i) = some v) ∧ Frame [] m m' := by
  induction slots generalizing pc offset m vs with
  | nil =>
    cases vs with
    | nil => exact ⟨0, m, .refl code m, ha.cast rfl (by simp), by simp, .refl _ m⟩
    | cons v vs => cases hl
  | cons t slots ih =>
    cases vs with
    | nil => cases hl
    | cons v vs =>
      obtain ⟨hc1, hc2⟩ := Code.holds_cons.1 hc
      have hstep := leads_push ha.running (ha.get hc1) (read_stack (hget 0 t v rfl rfl))
      obtain ⟨k, m', hk, ha', hget', hf⟩ := ih (ha.pushed v) (Nat.succ.inj hl)
        (fun i t w ht hw => Stack.get?_push_of_get? (hget (i + 1) t w ht hw) v) hc2
      refine ⟨1 + k, m', hstep.trans hk, ha'.cast (by simp; omega) (by simp; omega), ?_,
        (frame_pushed _ m v).trans_same hf⟩
      intro i w hw
      cases i with
      | zero =>
        cases hw
        simpa using hf.get? (ha.top v) (by simp)
      | succ i =>
        rw [← hget' i w hw]
        congr 1
        omega

theorem simulates_call {callee : String → List Value → Outcome Value}
    (hcall : SimulatesCalls code entry arity? n callee) {arguments : List Block}
    {es : List (Evaluation Value)} (name : String)
    (ha : List.Forall₂ (Simulates code entry arity? n) arguments es) :
    Simulates code entry arity? n (Block.call name arguments) (Evaluation.call (callee name) es) := by
  intro L Γ ρ m b hb hs hm hc
  obtain ⟨harity, pushes, hpushes, rfl⟩ := Block.call_eq_some.1 hb
  obtain ⟨hc12, hc3⟩ := Code.holds_append.1 hc
  obtain ⟨hc1, hc2⟩ := Code.holds_append.1 hc12
  obtain ⟨hcode, hdrop⟩ := Code.holds_cons.1 hc3
  refine Meets.bind (meets_values ha hpushes hs hm hc1) fun vs ρ1 m1 h1 => ?_
  obtain ⟨k, m2, hk, h2, hget2, hf2⟩ := leads_window h1.here (by simp [h1.length]) h1.get hc2
  have hlen : (vs.length : Int) = arguments.length := by rw [h1.length]
  have hoffset := h1.here.nonneg
  have hpc : L.start + pushes.length + (L.slots arguments.length).length =
      L.start + (pushes ++ (L.slots arguments.length).map fun slot =>
        Draft.fixed (.push (.stack slot))).length := by
    simp [Nat.add_assoc]
  rw [hpc, Layout.length_slots] at h2
  refine Meets.step hk (Meets.ofOutcome ρ1 (hcall name vs Γ ρ1 _ _ m2 ?_ hcode h2 ?_ ?_) ?_)
  · rw [← hs.arity, harity, h1.length]
  · intro i v hv
    rw [← hget2 i v hv]
    congr 1
    omega
  · intro t ht
    have := hs.below t ht
    omega
  · rintro v m3 ⟨h3, hv, S, hS, hf3⟩
    have hf : Frame (Γ.map Prod.snd) m m3 := by
      refine ((h1.frame.trans hf2 (by simp)).trans hf3 fun t ht => ?_)
      have := hS t ht
      have := hm.height
      exact .inr (by omega)
    refine meets_drop (n := n) hs hm (h3.cast rfl ?_) hv hf hdrop ?_
    · push_cast
      omega
    · simp
      omega

/-- A function that is called finds its parameters below its frame base. -/
theorem simulates_function {f : Function} {L : Layout} {b : List Draft} {e : Evaluation Value}
    {vs : List Value} {Γ : List (String × Int)} {ρ : Env} {pc : Nat} {offset : Int} {m : Machine}
    (hblock : f.block L = some b) (harity : L.arity? = arity?) (hslot : L.slot? = fun _ => none)
    (he : Simulates code entry arity? n f.body.block e) (hl : f.parameters.length = vs.length)
    (hcode : code.Holds entry L.start b) (hcall : code.get? pc = some (.call L.start))
    (ha : At Γ ρ pc offset m)
    (hget : ∀ (i : Nat) v, vs[i]? = some v → m.stack.get? (offset - vs.length + i) = some v)
    (hbelow : ∀ t ∈ Γ.map Prod.snd, t < offset - vs.length) :
    Meets code (n + 1) m (StateT.run' e (f.parameters.zip vs) : ExceptT TypeMismatch Option Value)
      fun v m' => At Γ ρ (pc + 1) offset m' ∧ m'.accumulator = v ∧
        ∃ S : List Int, (∀ t ∈ S, offset - vs.length ≤ t) ∧ Frame S m m' := by
  obtain ⟨-, b, hb, rfl⟩ := Function.block_eq_some.1 hblock
  obtain ⟨hc1, hc2⟩ := Code.holds_append.1 hcode
  refine Meets.count (leads_call ha.running (ha.get hcall)) ?_
  have hstored : Stored (m.called L.start).stack
      (f.parameters.zip (parameterSlots f.parameters.length)) (f.parameters.zip vs) := by
    refine Stored.zip (fun i t v ht hv => ?_) (by simp [parameterSlots, hl])
    have hi := (List.getElem?_eq_some_iff.1 hv).1
    rw [parameterSlots_eq L, Layout.getElem?_slots _ _ i (by omega)] at ht
    cases ht
    show m.stack.pushFrame.get? _ = some v
    rw [Stack.get?_pushFrame ha.height, ← hget i v hv, hl]
    congr 1
    show offset + (-(vs.length : Int) + i) = _
    omega
  have h1 : At (f.parameters.zip (parameterSlots f.parameters.length)) (f.parameters.zip vs) L.start 0
      (m.called L.start) :=
    ⟨ha.running, ha.heap, rfl, (Int.add_zero _).symm, Int.le_refl 0, hstored⟩
  refine Meets.run' (he _ _ _ _ b hb (.parameters harity hslot _) h1 hc1) ?_
  rintro ⟨v, ρ2⟩ m2 h2
  have hbase : m2.stack.base = m.stack.height := h2.frame.base
  have hsaved : m2.stack.saved = m.stack.saved.push m.stack.base := h2.frame.saved
  have hreturns : m2.returns = (m.pc + 1) :: m.returns := h2.frame.returns
  have hstep := leads_result h2.here.running (h2.here.get (Code.holds_cons.1 hc2).1) hreturns
    (by rw [hsaved, Array.back?_push])
  have hheight : (m2.returned m.stack.base m.returns (m.pc + 1)).stack.height = m.stack.height := by
    have : m.stack.height ≤ m2.stack.height := h2.frame.height
    simp only [returned, Stack.height_popFrame]
    omega
  have hf : Frame ((parameterSlots f.parameters.length).map (offset + ·)) m
      (m2.returned m.stack.base m.returns (m.pc + 1)) := by
    refine ⟨rfl, by simp [returned, Stack.popFrame, hsaved], rfl, Nat.le_of_eq hheight.symm, ?_⟩
    intro i hi hS
    have hcell : m2.stack.cells[i]? = m.stack.cells[i]? := by
      refine h2.frame.cells i hi fun t ht => ?_
      obtain ⟨e, he, rfl⟩ := List.mem_map.1 ht
      have := hS _ (List.mem_map_of_mem (List.of_mem_zip he).2)
      have := ha.height
      show (i : Int) ≠ m.stack.height + e.2
      omega
    simp only [returned, Stack.popFrame]
    rw [Stack.getElem?_shrink _ (by omega), hcell]
  have hS : ∀ t ∈ (parameterSlots f.parameters.length).map (offset + ·), offset - vs.length ≤ t := by
    intro t ht
    obtain ⟨u, hu, rfl⟩ := List.mem_map.1 ht
    have := mem_parameterSlots hu
    omega
  refine ⟨1, _, hstep, ?_, h2.accumulator, _, hS, hf⟩
  refine ⟨h2.here.running, h2.here.heap, congrArg (· + 1) ha.pc, ?_, ha.nonneg, ?_⟩
  · rw [hheight]
    exact ha.height
  · refine ha.stored.congr fun c hc w hw => hf.get? hw fun hmem => ?_
    have := hS _ hmem
    have := hbelow _ (List.mem_map_of_mem hc)
    omega

end Simulation
end Sigil
