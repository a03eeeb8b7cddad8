import Sigil.Proofs.Machine.Run

/-!
What each instruction does on a stack that is large enough, given what its operands hold.
-/
namespace Sigil

def Operation.Checked : Operation → Prop
  | arithmetic _ | order _ => True
  | _ => False

namespace Machine

def accumulated (m : Machine) (v : Value) : Machine := { m.fetched with accumulator := v }

def written (m : Machine) (i : Nat) (v : Value) : Machine :=
  { m.fetched with stack := m.stack.set i v }

def pushed (m : Machine) (v : Value) : Machine := { m.fetched with stack := m.stack.push v }

def dropped (m : Machine) (n : Nat) : Machine := { m.fetched with stack := m.stack.drop n }

def jumped (m : Machine) (target : Nat) : Machine := { m.fetched with pc := target }

def called (m : Machine) (target : Nat) : Machine :=
  { m.fetched with stack := m.stack.pushFrame, returns := (m.pc + 1) :: m.returns, pc := target }

def returned (m : Machine) (base : Nat) (returns : List Nat) (pc : Nat) : Machine :=
  { m.fetched with stack := m.stack.popFrame base, returns, pc }

def allocated (m : Machine) (h : Heap) : Machine := { m.fetched with heap := h }

variable {code : Code} {m : Machine} {source : Operand} {v w : Value} {t : Int} {i n cell : Nat}

theorem read_fetched (m : Machine) (source : Operand) : m.fetched.read source = m.read source := by
  cases source <;> rfl

theorem fetch_fetched (h : m.read source = .ok v) : fetch source m.fetched = .ok v m.fetched :=
  fetch_of_ok ((read_fetched m source).trans h)

theorem read_stack (h : m.stack.get? t = some v) : m.read (.stack t) = .ok v := by
  simp only [read, h]

theorem read_heap (hh : m.heap = [(cell, w)]) : m.read (.heap cell) = .ok w := by
  simp [read, Heap.load?, hh]

theorem store_stack (h : m.stack.index? t = some i) (v : Value) :
    store (.stack t) v m.fetched = .ok () (m.written i v) := by
  have hi : m.fetched.stack.index? t = some i := h
  simp only [store, hi]
  rfl

theorem store_heap (hh : m.heap = [(cell, w)]) (v : Value) :
    store (.heap cell) v m.fetched = .ok () (m.allocated [(cell, v)]) := by
  have hh' : m.fetched.heap = [(cell, w)] := hh
  simp only [store, hh']
  simp [Heap.isLive, Heap.load?, Heap.store, allocated]

theorem execute_accumulate (h : m.read source = .ok v) :
    execute (.move .accumulator source) m.fetched = .ok () (m.accumulated v) :=
  bind_eq_ok.2 ⟨v, _, fetch_fetched h, rfl⟩

theorem execute_store (h : m.stack.index? t = some i) :
    execute (.move (.stack t) .accumulator) m.fetched = .ok () (m.written i m.accumulator) :=
  bind_eq_ok.2 ⟨_, _, fetch_fetched rfl, store_stack h _⟩

theorem execute_push (h : m.read source = .ok v) : execute (.push source) m.fetched =
    if m.stack.hasRoom then .ok () (m.pushed v)
    else .error (.stackOverflow m.stack.limit) m.fetched :=
  bind_of_ok (fetch_fetched h)

theorem execute_drop (h : m.stack.base + n ≤ m.stack.height) :
    execute (.drop n) m.fetched = .ok () (m.dropped n) :=
  if_pos (decide_eq_true h)

theorem execute_not : execute (.not .accumulator) m.fetched =
    .ok () (m.accumulated (.ofBool !m.accumulator.isTruthy)) :=
  bind_eq_ok.2 ⟨m.accumulator, _, fetch_fetched rfl, rfl⟩

theorem execute_binary {op : Operation} {a b : Value} (ha : m.stack.get? t = some a)
    (hb : m.read source = .ok b) (hi : m.stack.index? t = some i) :
    execute (.binary op (.stack t) source) m.fetched =
      match op.apply a b with
      | .ok v => .ok () (m.written i v)
      | .error cause => .error (.typeMismatch cause) m.fetched := by
  rw [execute, bind_of_ok (fetch_fetched (read_stack ha)), bind_of_ok (fetch_fetched hb)]
  cases hv : op.apply a b with
  | ok v =>
    have hcombine : combine op a b m.fetched = .ok v m.fetched := by
      simp only [combine, hv]
      rfl
    rw [bind_of_ok hcombine, store_stack hi]
  | error cause =>
    have hcombine : combine op a b m.fetched = .error (.typeMismatch cause) m.fetched := by
      simp only [combine, hv]
      rfl
    rw [bind_of_error hcombine]

theorem execute_jumpUnless {target : Nat} :
    execute (.jumpUnless .accumulator target) m.fetched =
      .ok () (m.jumped (if m.accumulator.isTruthy then m.pc + 1 else target)) := by
  refine bind_eq_ok.2 ⟨m.accumulator, _, fetch_fetched rfl, ?_⟩
  cases m.accumulator.isTruthy <;> rfl

theorem execute_call (target : Nat) : execute (.call target) m.fetched =
    if m.stack.hasRoom then .ok () (m.called target)
    else .error (.stackOverflow m.stack.limit) m.fetched := rfl

theorem execute_new (hh : m.heap = []) :
    execute (.new cell) m.fetched = .ok () (m.allocated [(cell, .zero)]) := by
  have hh' : m.fetched.heap = [] := hh
  simp only [execute, allocate, hh']
  rfl

theorem execute_fill (hh : m.heap = [(cell, w)]) (hv : m.read source = .ok v) :
    execute (.move (.heap cell) source) m.fetched = .ok () (m.allocated [(cell, v)]) :=
  bind_eq_ok.2 ⟨v, _, fetch_fetched hv, store_heap hh v⟩

theorem execute_binaryHeap {op : Operation} {b : Value} (hh : m.heap = [(cell, w)])
    (hb : m.read source = .ok b) (hv : op.apply w b = .ok v) :
    execute (.binary op (.heap cell) source) m.fetched = .ok () (m.allocated [(cell, v)]) := by
  refine bind_eq_ok.2 ⟨w, _, fetch_fetched (read_heap hh), bind_eq_ok.2 ⟨b, _, fetch_fetched hb,
    bind_eq_ok.2 ⟨v, m.fetched, ?_, store_heap hh v⟩⟩⟩
  simp only [combine, hv]
  rfl

theorem execute_release (hh : m.heap = [(cell, w)]) :
    execute (.release cell) m.fetched = .ok () (m.allocated []) := by
  have hh' : m.fetched.heap = [(cell, w)] := hh
  simp only [execute, release, hh']
  simp [Heap.isLive, Heap.load?, Heap.release, allocated]

/-- There is room, if the stack is large enough. -/
theorem hasRoom_of_relax (m : Machine) :
    (m.relax (m.stack.cells.size + m.stack.saved.size + 1)).stack.hasRoom := by
  simp only [Stack.hasRoom, decide_eq_true_eq]
  show m.stack.cells.size + m.stack.saved.size < m.stack.limit + (_ + _ + 1)
  omega

theorem leads_accumulate (hr : m.status = .running)
    (hc : code.get? m.pc = some (.move .accumulator source)) (hv : m.read source = .ok v) :
    Leads code 1 m (m.accumulated v) :=
  leads_of_execute 0 hr hc (execute_accumulate (m := m.relax 0) ((read_relax 0 m source).trans hv))

theorem leads_store (hr : m.status = .running)
    (hc : code.get? m.pc = some (.move (.stack t) .accumulator)) (hi : m.stack.index? t = some i) :
    Leads code 1 m (m.written i m.accumulator) :=
  leads_of_execute 0 hr hc (execute_store (m := m.relax 0) hi)

theorem leads_push (hr : m.status = .running) (hc : code.get? m.pc = some (.push source))
    (hv : m.read source = .ok v) : Leads code 1 m (m.pushed v) := by
  have hroom := hasRoom_of_relax m
  generalize m.stack.cells.size + m.stack.saved.size + 1 = d at hroom
  refine leads_of_execute d hr hc ?_
  have hpush := execute_push (m := m.relax d) ((read_relax d m source).trans hv)
  rwa [if_pos hroom] at hpush

theorem leads_drop (hr : m.status = .running) (hc : code.get? m.pc = some (.drop n))
    (hn : m.stack.base + n ≤ m.stack.height) : Leads code 1 m (m.dropped n) :=
  leads_of_execute 0 hr hc (execute_drop (m := m.relax 0) hn)

theorem leads_not (hr : m.status = .running) (hc : code.get? m.pc = some (.not .accumulator)) :
    Leads code 1 m (m.accumulated (.ofBool !m.accumulator.isTruthy)) :=
  leads_of_execute 0 hr hc (execute_not (m := m.relax 0))

theorem leads_binary {op : Operation} {a b : Value} (hr : m.status = .running)
    (hc : code.get? m.pc = some (.binary op (.stack t) source)) (ha : m.stack.get? t = some a)
    (hb : m.read source = .ok b) (hi : m.stack.index? t = some i) (hv : op.apply a b = .ok v) :
    Leads code 1 m (m.written i v) := by
  refine leads_of_execute 0 hr hc
    ((execute_binary (m := m.relax 0) ha ((read_relax 0 m source).trans hb) hi).trans ?_)
  simp only [hv]
  rfl

def Mismatches (code : Code) (cause : TypeMismatch) (m : Machine) : Prop :=
  m.status = .running ∧ cause.operation.Checked ∧
    (∃ target source, code.get? m.pc = some (.binary cause.operation target source)) ∧
    ∀ d, ∃ m', step code (m.relax d) = .error (.typeMismatch cause) m'

theorem mismatches_binary {op : Operation} {a b : Value} {cause : TypeMismatch}
    (hr : m.status = .running) (hc : code.get? m.pc = some (.binary op (.stack t) source))
    (ha : m.stack.get? t = some a) (hb : m.read source = .ok b) (hi : m.stack.index? t = some i)
    (hop : cause.operation = op) (hchecked : op.Checked) (hv : op.apply a b = .error cause) :
    Mismatches code cause m := by
  refine ⟨hr, hop ▸ hchecked, ⟨_, _, hop ▸ hc⟩,
    fun d => ⟨{ m.fetched.relax d with status := .faulted }, ?_⟩⟩
  have hs : (m.relax d).status = .running := hr
  have hpc : code.get? (m.relax d).pc = some (.binary op (.stack t) source) := hc
  have hexecute : execute (.binary op (.stack t) source) (m.relax d).fetched =
      .error (.typeMismatch cause) (m.fetched.relax d) := by
    rw [execute_binary (m := m.relax d) ha ((read_relax d m source).trans hb) hi, hv]
    rfl
  have hcycle : cycle code (m.relax d) = .error (.typeMismatch cause) (m.fetched.relax d) := by
    simp only [cycle, exhausted?_relax, hpc]
    exact hexecute
  rw [step, if_pos hs, hcycle]

theorem leads_goto {target : Nat} (hr : m.status = .running)
    (hc : code.get? m.pc = some (.goto target)) : Leads code 1 m (m.jumped target) :=
  leads_of_execute 0 hr hc rfl

theorem leads_jumpUnless {target : Nat} (hr : m.status = .running)
    (hc : code.get? m.pc = some (.jumpUnless .accumulator target)) :
    Leads code 1 m (m.jumped (if m.accumulator.isTruthy then m.pc + 1 else target)) :=
  leads_of_execute 0 hr hc (execute_jumpUnless (m := m.relax 0))

theorem leads_call {target : Nat} (hr : m.status = .running)
    (hc : code.get? m.pc = some (.call target)) :
    Leads code 1 m (m.called target) := by
  have hroom := hasRoom_of_relax m
  generalize m.stack.cells.size + m.stack.saved.size + 1 = d at hroom
  refine leads_of_execute d hr hc ?_
  have hcall := execute_call (m := m.relax d) target
  rwa [if_pos hroom] at hcall

theorem leads_result {pc base : Nat} {returns : List Nat} (hr : m.status = .running)
    (hc : code.get? m.pc = some (.result .accumulator)) (hp : m.returns = pc :: returns)
    (hb : m.stack.saved.back? = some base) :
    Leads code 1 m (m.returned base returns pc) := by
  refine leads_of_execute 0 hr hc
    (bind_eq_ok.2 ⟨m.accumulator, _, fetch_fetched (m := m.relax 0) rfl, ?_⟩)
  have hp' : (m.fetched.relax 0).returns = pc :: returns := hp
  have hleave : leave (m.fetched.relax 0) = .ok () (relax 0 { m.fetched with pc, returns }) := by
    simp only [leave, hp']
    rfl
  have hb' : (relax 0 { m.fetched with pc, returns }).stack.saved.back? = some base := hb
  have hframe : popFrame (relax 0 { m.fetched with pc, returns }) =
      .ok () ((m.returned base returns pc).relax 0) := by
    simp only [popFrame, hb']
    rfl
  exact bind_eq_ok.2 ⟨(), _, hleave, bind_eq_ok.2 ⟨(), _, hframe, rfl⟩⟩

theorem leads_exit (hr : m.status = .running) (hc : code.get? m.pc = some (.exit .accumulator)) :
    Leads code 1 m { m.fetched with status := .halted } :=
  leads_of_execute 0 hr hc (bind_eq_ok.2 ⟨m.accumulator, _, fetch_fetched (m := m.relax 0) rfl, rfl⟩)

theorem leads_new (hr : m.status = .running) (hc : code.get? m.pc = some (.new cell))
    (hh : m.heap = []) : Leads code 1 m (m.allocated [(cell, .zero)]) :=
  leads_of_execute 0 hr hc (execute_new (m := m.relax 0) hh)

theorem leads_storeHeap (hr : m.status = .running)
    (hc : code.get? m.pc = some (.move (.heap cell) source)) (hh : m.heap = [(cell, w)])
    (hv : m.read source = .ok v) : Leads code 1 m (m.allocated [(cell, v)]) :=
  leads_of_execute 0 hr hc (execute_fill (m := m.relax 0) hh ((read_relax 0 m source).trans hv))

theorem leads_binaryHeap {op : Operation} {b : Value} (hr : m.status = .running)
    (hc : code.get? m.pc = some (.binary op (.heap cell) source)) (hh : m.heap = [(cell, w)])
    (hb : m.read source = .ok b) (hv : op.apply w b = .ok v) :
    Leads code 1 m (m.allocated [(cell, v)]) :=
  leads_of_execute 0 hr hc
    (execute_binaryHeap (m := m.relax 0) hh ((read_relax 0 m source).trans hb) hv)

theorem leads_release (hr : m.status = .running)
    (hc : code.get? m.pc = some (.release cell)) (hh : m.heap = [(cell, w)]) :
    Leads code 1 m (m.allocated []) :=
  leads_of_execute 0 hr hc (execute_release (m := m.relax 0) hh)

end Machine
end Sigil
