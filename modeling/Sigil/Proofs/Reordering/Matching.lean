import Mathlib.Data.List.Forall2
import Sigil.Proofs.Draft.Bounds
import Sigil.Proofs.Draft.Relocation
import Sigil.Proofs.Machine.Stopping
import Sigil.Proofs.Relating

/-!
Codes that have the same instructions at other addresses, and use other heap cells: machines that
run them do the same step by step.
-/
namespace Sigil

open Machine

def Instruction.Continues : Instruction → Prop
  | .goto _ | .result _ | .exit _ => False
  | _ => True

structure Matching where
  place : Nat → Nat → Prop
  cell : Nat → Nat → Prop
  one_to_one : ∀ {a b c d}, cell a b → cell c d → (a = c ↔ b = d)

namespace Matching

inductive Operands (M : Matching) : Operand → Operand → Prop
  | stack (offset : Int) : Operands M (.stack offset) (.stack offset)
  | heap {a b : Nat} (h : M.cell a b) : Operands M (.heap a) (.heap b)
  | register (id : Nat) : Operands M (.register id) (.register id)
  | constant (v : Value) : Operands M (.constant v) (.constant v)

inductive Instructions (M : Matching) : Instruction → Instruction → Prop
  | move {a a' b b' : Operand} (ha : M.Operands a a') (hb : M.Operands b b') :
    Instructions M (.move a b) (.move a' b')
  | push {a a' : Operand} (ha : M.Operands a a') : Instructions M (.push a) (.push a')
  | pop {a a' : Operand} (ha : M.Operands a a') : Instructions M (.pop a) (.pop a')
  | drop (n : Nat) : Instructions M (.drop n) (.drop n)
  | binary {a a' b b' : Operand} (op : Operation) (ha : M.Operands a a') (hb : M.Operands b b') :
    Instructions M (.binary op a b) (.binary op a' b')
  | not {a a' : Operand} (ha : M.Operands a a') : Instructions M (.not a) (.not a')
  | call {t t' : Nat} (ht : M.place t t') : Instructions M (.call t) (.call t')
  | result {a a' : Operand} (ha : M.Operands a a') : Instructions M (.result a) (.result a')
  | exit {a a' : Operand} (ha : M.Operands a a') : Instructions M (.exit a) (.exit a')
  | goto {t t' : Nat} (ht : M.place t t') : Instructions M (.goto t) (.goto t')
  | jumpUnless {a a' : Operand} {t t' : Nat} (ha : M.Operands a a') (ht : M.place t t') :
    Instructions M (.jumpUnless a t) (.jumpUnless a' t')
  | new {a a' : Nat} (ha : M.cell a a') : Instructions M (.new a) (.new a')
  | release {a a' : Nat} (ha : M.cell a a') : Instructions M (.release a) (.release a')

def Codes (M : Matching) (code code' : Code) : Prop :=
  ∀ a b, M.place a b → ∃ i i', code.get? a = some i ∧ code'.get? b = some i' ∧
    M.Instructions i i' ∧ (i.Continues → M.place (a + 1) (b + 1))

def Heaps (M : Matching) : Heap → Heap → Prop :=
  List.Forall₂ fun x y => M.cell x.1 y.1 ∧ y.2 = x.2

structure Machines (M : Matching) (place : Nat → Nat → Prop) (m m' : Machine) : Prop where
  stack : m'.stack = m.stack
  heap : M.Heaps m.heap m'.heap
  pc : place m.pc m'.pc
  returns : List.Forall₂ M.place m.returns m'.returns
  accumulator : m'.accumulator = m.accumulator
  status : m'.status = m.status
  stepLimit : m'.stepLimit = m.stepLimit
  steps : m'.steps = m.steps

inductive Faults (M : Matching) : Fault → Fault → Prop
  | same (f : Fault) : Faults M f f
  | doubleAllocation {a b : Nat} (h : M.cell a b) :
    Faults M (.doubleAllocation a) (.doubleAllocation b)
  | invalidRelease {a b : Nat} (h : M.cell a b) : Faults M (.invalidRelease a) (.invalidRelease b)
  | useAfterRelease {a b : Nat} (h : M.cell a b) : Faults M (.useAfterRelease a) (.useAfterRelease b)

variable {M : Matching}

section Relocation

variable {r : Region} {jump jump' cell cell' : Nat → Nat}

theorem operands_relocate {o : Operand} (ho : r.HasOperand o)
    (hcell : ∀ c, r.HasOperand (.heap c) → M.cell (cell c) (cell' c)) :
    M.Operands (o.relocate cell) (o.relocate cell') := by
  cases o with
  | stack offset => exact .stack offset
  | heap c => exact .heap (hcell c ho)
  | register id => exact .register id
  | constant v => exact .constant v

/-- Moved to two places, an instruction belongs together with itself. -/
theorem instructions_relocate {i : Instruction} (hi : r.HasInstruction i)
    (hjump : ∀ t, r.HasTarget t → M.place (jump t) (jump' t))
    (hcell : ∀ c, r.HasOperand (.heap c) → M.cell (cell c) (cell' c)) :
    M.Instructions (i.relocate jump cell) (i.relocate jump' cell') := by
  cases i with
  | move a b => exact .move (operands_relocate hi.1 hcell) (operands_relocate hi.2 hcell)
  | push a => exact .push (operands_relocate hi hcell)
  | pop a => exact .pop (operands_relocate hi hcell)
  | drop n => exact .drop n
  | binary op a b => exact .binary op (operands_relocate hi.1 hcell) (operands_relocate hi.2 hcell)
  | not a => exact .not (operands_relocate hi hcell)
  | call target => cases hi
  | result a => exact .result (operands_relocate hi hcell)
  | exit a => exact .exit (operands_relocate hi hcell)
  | goto target => exact .goto (hjump target hi)
  | jumpUnless a target => exact .jumpUnless (operands_relocate hi.1 hcell) (hjump target hi.2)
  | new c => exact .new (hcell c hi)
  | release c => exact .release (hcell c hi)

end Relocation

variable {h h' : Heap} {a b : Nat}

theorem Heaps.load? (hh : M.Heaps h h') (hab : M.cell a b) : h'.load? b = h.load? a := by
  induction hh with
  | nil => rfl
  | @cons x y h h' hxy _ ih =>
    have hkey := M.one_to_one hab hxy.1
    obtain ⟨c, v⟩ := x
    obtain ⟨d, w⟩ := y
    obtain ⟨-, rfl⟩ := hxy
    rw [Heap.load?_cons, Heap.load?_cons, ih]
    simp only [hkey]

theorem Heaps.isLive (hh : M.Heaps h h') (hab : M.cell a b) : h'.isLive b = h.isLive a := by
  rw [Heap.isLive, Heap.isLive, hh.load? hab]

theorem Heaps.allocate (hh : M.Heaps h h') (hab : M.cell a b) :
    M.Heaps (h.allocate a) (h'.allocate b) :=
  .cons ⟨hab, rfl⟩ hh

theorem Heaps.release (hh : M.Heaps h h') (hab : M.cell a b) :
    M.Heaps (h.release a) (h'.release b) := by
  induction hh with
  | nil => exact .nil
  | @cons x y h h' hxy _ ih =>
    have hkey := M.one_to_one hxy.1 hab
    by_cases hx : x.1 = a
    · have hy := hkey.1 hx
      simpa [Heap.release, hx, hy] using ih
    · have hy := mt hkey.2 hx
      have hrest : M.Heaps (x :: Heap.release h a) (y :: Heap.release h' b) := .cons hxy ih
      simpa [Heap.release, hx, hy] using hrest

theorem Heaps.store (hh : M.Heaps h h') (hab : M.cell a b) (v : Value) :
    M.Heaps (h.store a v) (h'.store b v) := by
  induction hh with
  | nil => exact .nil
  | @cons x y h h' hxy _ ih =>
    refine .cons ?_ ih
    simp only [M.one_to_one hxy.1 hab]
    split
    · exact ⟨hxy.1, rfl⟩
    · exact hxy

variable {R S : Nat → Nat → Prop} {m m' : Machine} {o o' : Operand}

theorem Machines.imp (hm : M.Machines R m m') (hR : R m.pc m'.pc → S m.pc m'.pc) :
    M.Machines S m m' :=
  { hm with pc := hR hm.pc }

theorem Machines.exhausted? (hm : M.Machines R m m') : m'.exhausted? = m.exhausted? := by
  rw [Machine.exhausted?, Machine.exhausted?, hm.stepLimit, hm.steps]

theorem relates_fetch (ho : M.Operands o o') :
    Relates M.Faults (M.Machines R) (M.Machines R) Eq (fetch o) (fetch o') := by
  intro m m' hm
  cases ho with
  | stack offset =>
    simp only [fetch, Machine.read, hm.stack]
    cases m.stack.get? offset with
    | none => exact .error (.same _)
    | some v => exact .ok rfl hm
  | heap hab =>
    simp only [fetch, Machine.read, hm.heap.load? hab]
    cases m.heap.load? _ with
    | none => exact .error (.useAfterRelease hab)
    | some v => exact .ok rfl hm
  | register id =>
    simp only [fetch, Machine.read, hm.accumulator]
    by_cases hid : id = 0
    · simp only [if_pos hid]
      exact .ok rfl hm
    · simp only [if_neg hid]
      exact .error (.same _)
  | constant v => exact .ok rfl hm

theorem relates_store (ho : M.Operands o o') (v : Value) :
    Relates M.Faults (M.Machines R) (M.Machines R) Done (store o v) (store o' v) := by
  intro m m' hm
  cases ho with
  | stack offset =>
    simp only [Machine.store, hm.stack]
    cases m.stack.index? offset with
    | none => exact .error (.same _)
    | some i => exact .ok trivial { hm with stack := rfl }
  | heap hab =>
    simp only [Machine.store, hm.heap.isLive hab]
    split
    · exact .ok trivial { hm with heap := hm.heap.store hab v }
    · exact .error (.useAfterRelease hab)
  | register id =>
    simp only [Machine.store]
    split
    · exact .ok trivial { hm with accumulator := rfl }
    · exact .error (.same _)
  | constant w => exact .error (.same _)

theorem relates_push (v : Value) :
    Relates M.Faults (M.Machines R) (M.Machines R) Done (push v) (push v) := by
  intro m m' hm
  simp only [push, hm.stack]
  split
  · exact .ok trivial { hm with stack := rfl }
  · exact .error (.same _)

theorem relates_pop : Relates M.Faults (M.Machines R) (M.Machines R) Eq pop pop := by
  intro m m' hm
  simp only [pop, hm.stack]
  cases m.stack.top? with
  | none => exact .error (.same _)
  | some v => exact .ok rfl { hm with stack := rfl }

theorem relates_drop (n : Nat) :
    Relates M.Faults (M.Machines R) (M.Machines R) Done (Machine.drop n) (Machine.drop n) := by
  intro m m' hm
  simp only [Machine.drop, hm.stack]
  split
  · exact .ok trivial { hm with stack := rfl }
  · exact .error (.same _)

theorem relates_combine (op : Operation) (v w : Value) :
    Relates M.Faults (M.Machines R) (M.Machines R) Eq (combine op v w) (combine op v w) := by
  unfold combine
  cases op.apply v w with
  | ok u => exact .pure rfl
  | error cause => exact .throw (.same _)

theorem relates_accumulate (v : Value) :
    Relates M.Faults (M.Machines R) (M.Machines R) Done (accumulate v) (accumulate v) :=
  fun _ _ hm => .ok trivial { hm with accumulator := rfl }

theorem relates_allocate (hab : M.cell a b) :
    Relates M.Faults (M.Machines R) (M.Machines R) Done (allocate a) (allocate b) := by
  intro m m' hm
  simp only [allocate, hm.heap.isLive hab]
  split
  · exact .error (.doubleAllocation hab)
  · exact .ok trivial { hm with heap := hm.heap.allocate hab }

theorem relates_release (hab : M.cell a b) :
    Relates M.Faults (M.Machines R) (M.Machines R) Done (release a) (release b) := by
  intro m m' hm
  simp only [release, hm.heap.isLive hab]
  split
  · exact .ok trivial { hm with heap := hm.heap.release hab }
  · exact .error (.invalidRelease hab)

theorem relates_popFrame : Relates M.Faults (M.Machines R) (M.Machines R) Done popFrame popFrame := by
  intro m m' hm
  simp only [popFrame, hm.stack]
  cases m.stack.saved.back? with
  | none => exact .error (.same _)
  | some base => exact .ok trivial { hm with stack := rfl }

theorem relates_jump {t t' : Nat} (ht : S t t') :
    Relates M.Faults (M.Machines R) (M.Machines S) Done (jump t) (jump t') :=
  fun _ _ hm => .ok trivial { hm with pc := ht }

theorem relates_call {t t' : Nat} (ht : M.place t t') :
    Relates M.Faults (M.Machines M.place) (M.Machines M.place) Done (Machine.call t)
      (Machine.call t') := by
  intro m m' hm
  simp only [Machine.call, hm.stack]
  split
  · exact .ok trivial { hm with stack := rfl, pc := ht, returns := .cons hm.pc hm.returns }
  · exact .error (.same _)

theorem relates_leave : Relates M.Faults (M.Machines R) (M.Machines M.place) Done leave leave := by
  intro m m' hm
  have hr := hm.returns
  unfold leave
  cases hm' : m.returns with
  | nil =>
    rw [hm', List.forall₂_nil_left_iff] at hr
    simp only [hr]
    exact .error (.same _)
  | cons pc returns =>
    rw [hm', List.forall₂_cons_left_iff] at hr
    obtain ⟨pc', returns', hpc, hreturns, hr⟩ := hr
    simp only [hr]
    exact .ok trivial { hm with pc := hpc, returns := hreturns }

def Running (M : Matching) (m m' : Machine) : Prop :=
  M.Machines (fun a b => m.status = .running → M.place a b) m m'

theorem Running.machines (h : M.Running m m') (hm : m.status = .running) :
    M.Machines M.place m m' :=
  h.imp fun hpc => hpc hm

theorem relates_halt : Relates M.Faults (M.Machines R) M.Running Done halt halt :=
  fun _ _ hm => .ok trivial { hm with pc := nofun, status := rfl }

variable {i i' : Instruction}

theorem relates_of_continues (hi : M.Instructions i i') (hc : i.Continues) :
    Relates M.Faults (M.Machines M.place) (M.Machines M.place) Done (execute i) (execute i') := by
  cases hi with
  | move ha hb =>
    refine (relates_fetch hb).bind ?_
    rintro v _ rfl
    exact relates_store ha v
  | push ha =>
    refine (relates_fetch ha).bind ?_
    rintro v _ rfl
    exact relates_push v
  | pop ha =>
    refine relates_pop.bind ?_
    rintro v _ rfl
    exact relates_store ha v
  | drop n => exact relates_drop n
  | binary op ha hb =>
    refine (relates_fetch ha).bind ?_
    rintro v _ rfl
    refine (relates_fetch hb).bind ?_
    rintro w _ rfl
    refine (relates_combine op v w).bind ?_
    rintro u _ rfl
    exact relates_store ha u
  | not ha =>
    refine (relates_fetch ha).bind ?_
    rintro v _ rfl
    exact relates_store ha _
  | call ht => exact relates_call ht
  | jumpUnless ha ht =>
    refine (relates_fetch ha).bind ?_
    rintro v _ rfl
    by_cases hv : v.isTruthy
    · simp only [hv]
      exact .pure trivial
    · simp only [hv]
      exact relates_jump ht
  | new ha => exact relates_allocate ha
  | release ha => exact relates_release ha
  | result | exit | goto => cases hc

/-- The program counters have already gone on, to places that belong together unless the instruction
leads elsewhere. -/
theorem relates_execute (hi : M.Instructions i i') :
    Relates M.Faults (M.Machines fun a b => i.Continues → M.place a b) M.Running Done (execute i)
      (execute i') := by
  have hrunning : ∀ t t', M.Machines M.place t t' → M.Running t t' :=
    fun _ _ hm => hm.imp fun hpc _ => hpc
  by_cases hc : i.Continues
  · exact (relates_of_continues hi hc).mono (fun _ _ hm => hm.imp fun hpc => hpc hc) hrunning
  · cases hi with
    | result ha =>
      refine (relates_fetch ha).bind ?_
      rintro v _ rfl
      refine relates_leave.bind fun _ _ _ => relates_popFrame.bind fun _ _ _ => ?_
      exact (relates_accumulate v).mono (fun _ _ => id) hrunning
    | exit ha =>
      refine (relates_fetch ha).bind ?_
      rintro v _ rfl
      exact (relates_accumulate v).bind fun _ _ _ => relates_halt
    | goto ht => exact (relates_jump ht).mono (fun _ _ => id) hrunning
    | _ => exact absurd trivial hc

variable {code code' : Code}

theorem alike_faulting {r r' : EStateM.Result Fault Machine Unit}
    (h : Alike M.Running Done M.Faults r r') :
    Alike M.Running Done M.Faults (faulting r) (faulting r') := by
  cases h with
  | ok hv hq => exact .ok hv hq
  | error he => exact .error he

theorem relates_step (hc : M.Codes code code') :
    Relates M.Faults (M.Machines M.place) M.Running Done (step code) (step code') := by
  intro m m' hm
  by_cases hr : m.status = .running
  · have hr' : m'.status = .running := hm.status.trans hr
    cases hx : m.exhausted? with
    | some limit =>
      rw [step_exhausted hr hx, step_exhausted hr' (hm.exhausted?.trans hx)]
      exact .error (.same _)
    | none =>
      obtain ⟨i, i', hi, hi', hii, hnext⟩ := hc _ _ hm.pc
      have hfetched : M.Machines (fun a b => i.Continues → M.place a b) m.fetched m'.fetched :=
        { hm with pc := hnext, steps := congrArg (· + 1) hm.steps }
      rw [step_of_allowed code hr hx, step_of_allowed code' hr' (hm.exhausted?.trans hx), hi, hi']
      exact alike_faulting (relates_execute hii _ _ hfetched)
  · have hr' : ¬ m'.status = .running := fun h => hr (hm.status.symm.trans h)
    rw [step, step, if_neg hr, if_neg hr']
    exact .error (.same _)

variable {t u : Machine} {k n : Nat} {config : Config} {o : Except Fault Value}

theorem step_of_ok (hc : M.Codes code code') (hm : M.Machines M.place m m')
    (h : step code m = .ok () t) : ∃ t', step code' m' = .ok () t' ∧ M.Running t t' := by
  have hstep := relates_step hc m m' hm
  rw [h] at hstep
  generalize step code' m' = r at hstep
  cases hstep with
  | ok _ ht => exact ⟨_, rfl, ht⟩

theorem step_of_error {f : Fault} (hc : M.Codes code code') (hm : M.Machines M.place m m')
    (h : step code m = .error f t) : ∃ f' t', step code' m' = .error f' t' ∧ M.Faults f f' := by
  have hstep := relates_step hc m m' hm
  rw [h] at hstep
  generalize step code' m' = r at hstep
  cases hstep with
  | error hf => exact ⟨_, _, rfl, hf⟩

/-- As long as the one machine runs, the other makes the same steps. -/
theorem steps_of_steps (hc : M.Codes code code') (hm : M.Machines M.place m m')
    (h : Steps code k m u) (hu : u.status = .running) :
    ∃ u', Steps code' k m' u' ∧ M.Machines M.place u u' := by
  induction k generalizing m m' with
  | zero =>
    cases h
    exact ⟨m', rfl, hm⟩
  | succ k ih =>
    obtain ⟨t, ht, hrest⟩ := h
    obtain ⟨t', ht', hrunning⟩ := step_of_ok hc hm ht
    obtain ⟨u', hsteps, hmachines⟩ := ih (hrunning.machines (hrest.running hu)) hrest
    exact ⟨u', ⟨t', ht', hsteps⟩, hmachines⟩

inductive Outcomes (M : Matching) : Except Fault Value → Except Fault Value → Prop
  | ok (v : Value) : Outcomes M (.ok v) (.ok v)
  | error {f f' : Fault} (h : M.Faults f f') : Outcomes M (.error f) (.error f')

theorem finishes_of_finishes (hc : M.Codes code code') (hm : M.Machines M.place u m')
    (h : Finishes code u m o) : ∃ o' t', Finishes code' m' t' o' ∧ M.Outcomes o o' := by
  cases o with
  | ok v =>
    obtain ⟨hstep, hhalted, rfl⟩ := h
    obtain ⟨t', ht', hrunning⟩ := step_of_ok hc hm hstep
    exact ⟨.ok t'.accumulator, t', ⟨ht', hrunning.status.trans hhalted, rfl⟩,
      hrunning.accumulator ▸ .ok _⟩
  | error f =>
    obtain ⟨f', t', ht', hf⟩ := step_of_error hc hm h.2
    exact ⟨.error f', t', ⟨hm.status.trans h.1, ht'⟩, .error hf⟩

theorem machines_start (hstart : M.place 0 0) (config : Config) :
    M.Machines M.place (start config) (start config) :=
  ⟨rfl, .nil, hstart, .nil, rfl, rfl, rfl, rfl⟩

/-- If the one run stops, so does the other with the same step, and in the same way but for the
addresses of heap cells. -/
theorem stops_of_stops (hc : M.Codes code code') (hstart : M.place 0 0)
    (h : Stops code config n o m) : ∃ o' m', Stops code' config n o' m' ∧ M.Outcomes o o' := by
  obtain ⟨k, u, rfl, hsteps, hlast⟩ := stops_iff.1 h
  obtain ⟨u', hsteps', hu⟩ := steps_of_steps hc (machines_start hstart config) hsteps hlast.running
  obtain ⟨o', m', hlast', ho⟩ := finishes_of_finishes hc hu hlast
  exact ⟨o', m', stops_iff.2 ⟨k, u', rfl, hsteps', hlast'⟩, ho⟩

end Matching
end Sigil
