import Sigil.Machine.Step

/-!
The part of a machine that decides whether it may go on: its limits, its status and the count of its
steps. Only few instructions look at it or change it.
-/
namespace Sigil

theorem Stack.hasRoom_iff {s : Stack} : s.hasRoom ↔ s.height + s.saved.size < s.limit := by
  simp only [hasRoom, decide_eq_true_eq, height]

namespace Machine

variable {α β : Type} {m t : Machine}

structure Control where
  stackLimit : Nat
  stepLimit : Option Nat
  status : Status
  steps : Nat

def control (m : Machine) : Control := ⟨m.stack.limit, m.stepLimit, m.status, m.steps⟩

def withControl (c : Control) (m : Machine) : Machine :=
  { m with
    stack := { m.stack with limit := c.stackLimit }
    stepLimit := c.stepLimit, status := c.status, steps := c.steps }

theorem control_withControl (c : Control) (m : Machine) : (m.withControl c).control = c := rfl

theorem read_withControl (c : Control) (m : Machine) (source : Operand) :
    (m.withControl c).read source = m.read source := by
  cases source <;> rfl

def mapResult (φ : Machine → Machine) :
    EStateM.Result Fault Machine α → EStateM.Result Fault Machine α
  | .ok a m => .ok a (φ m)
  | .error f m => .error f (φ m)

def Indifferent (x : Action α) : Prop :=
  ∀ c m, x (m.withControl c) = mapResult (withControl c) (x m)

theorem Indifferent.own {x : Action α} (hx : Indifferent x) (m : Machine) :
    mapResult (withControl m.control) (x m) = x m := (hx _ m).symm

theorem Indifferent.control_eq {x : Action α} {a : α} (hx : Indifferent x) (h : x m = .ok a t) :
    t.control = m.control := by
  have hown := hx.own m
  simp only [h, mapResult, EStateM.Result.ok.injEq, true_and] at hown
  rw [← hown, control_withControl]

theorem Indifferent.bind {x : Action α} {f : α → Action β} (hx : Indifferent x)
    (hf : ∀ a, Indifferent (f a)) : Indifferent (x >>= f) := by
  intro c m
  show EStateM.bind x f (m.withControl c) = mapResult (withControl c) (EStateM.bind x f m)
  simp only [EStateM.bind, hx c m]
  cases x m with
  | ok a t => exact hf a c t
  | error f t => rfl

theorem fetch_of_ok {source : Operand} {v : Value} (h : m.read source = .ok v) :
    fetch source m = .ok v m := by
  simp only [fetch, h]

theorem fetch_of_error {source : Operand} {f : Fault} (h : m.read source = .error f) :
    fetch source m = .error f m := by
  simp only [fetch, h]

theorem indifferent_fetch (source : Operand) : Indifferent (fetch source) := by
  intro c m
  simp only [fetch, read_withControl]
  cases m.read source <;> rfl

theorem indifferent_store (target : Operand) (v : Value) : Indifferent (store target v) := by
  intro c m
  cases target with
  | stack offset =>
    have h : (m.withControl c).stack.index? offset = m.stack.index? offset := rfl
    simp only [store, h]
    cases m.stack.index? offset <;> rfl
  | heap address =>
    have h : (m.withControl c).heap = m.heap := rfl
    simp only [store, h]
    split <;> rfl
  | register id =>
    simp only [store]
    split <;> rfl
  | constant v => rfl

theorem indifferent_pop : Indifferent pop := by
  intro c m
  have h : (m.withControl c).stack.top? = m.stack.top? := rfl
  simp only [pop, h]
  cases m.stack.top? <;> rfl

theorem indifferent_drop (n : Nat) : Indifferent (drop n) := by
  intro c m
  have h : (m.withControl c).stack.holds n = m.stack.holds n := rfl
  simp only [drop, h]
  split <;> rfl

theorem indifferent_leave : Indifferent leave := by
  intro c m
  have h : (m.withControl c).returns = m.returns := rfl
  simp only [leave, h]
  cases m.returns <;> rfl

theorem indifferent_popFrame : Indifferent popFrame := by
  intro c m
  have h : (m.withControl c).stack.saved = m.stack.saved := rfl
  simp only [popFrame, h]
  cases m.stack.saved.back? <;> rfl

theorem indifferent_allocate (address : Nat) : Indifferent (allocate address) := by
  intro c m
  have h : (m.withControl c).heap = m.heap := rfl
  simp only [allocate, h]
  split <;> rfl

theorem indifferent_release (address : Nat) : Indifferent (release address) := by
  intro c m
  have h : (m.withControl c).heap = m.heap := rfl
  simp only [release, h]
  split <;> rfl

theorem indifferent_combine (op : Operation) (a b : Value) : Indifferent (combine op a b) := by
  intro c m
  simp only [combine]
  cases op.apply a b <;> rfl

def Plain : Instruction → Prop
  | .push _ | .call _ | .exit _ => False
  | _ => True

theorem indifferent_execute {i : Instruction} (hi : Plain i) : Indifferent (execute i) := by
  cases i with
  | move target source =>
    exact (indifferent_fetch source).bind fun v => indifferent_store target v
  | push source => cases hi
  | pop target => exact indifferent_pop.bind fun v => indifferent_store target v
  | drop n => exact indifferent_drop n
  | binary op target source =>
    exact (indifferent_fetch target).bind fun a => (indifferent_fetch source).bind fun b =>
      (indifferent_combine op a b).bind fun v => indifferent_store target v
  | not target => exact (indifferent_fetch target).bind fun v => indifferent_store target _
  | call target => cases hi
  | result source =>
    exact (indifferent_fetch source).bind fun v => indifferent_leave.bind fun _ =>
      indifferent_popFrame.bind fun _ _ _ => rfl
  | exit source => cases hi
  | goto target => exact fun _ _ => rfl
  | jumpUnless source target =>
    refine (indifferent_fetch source).bind fun v => ?_
    show Indifferent (if v.isTruthy then pure () else jump target)
    split <;> exact fun _ _ => rfl
  | new address => exact indifferent_allocate address
  | release address => exact indifferent_release address

end Machine
end Sigil
