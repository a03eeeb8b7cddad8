import Sigil.Proofs.Machine.Run

/-!
What a step does to the frames: it stays in the current one, or opens one, or goes back to the frame
below. The frames stay nested whatever the code is.
-/
namespace Sigil

def Stack.bases (s : Stack) : List Nat := s.saved.toList ++ [s.base]

@[simp] theorem Stack.length_bases (s : Stack) : s.bases.length = s.saved.size + 1 := by
  simp [bases]

theorem Stack.bases_pushFrame (s : Stack) : s.pushFrame.bases = s.bases ++ [s.height] := by
  simp [bases, pushFrame, height]

theorem Stack.bases_popFrame {s : Stack} {base : Nat} (h : s.saved.back? = some base) :
    (s.popFrame base).bases = s.bases.dropLast := by
  rw [← Array.getLast?_toList, List.getLast?_eq_some_iff] at h
  obtain ⟨below, h⟩ := h
  simp [bases, popFrame, h]

theorem Stack.holds_iff {s : Stack} {n : Nat} : s.holds n ↔ s.base + n ≤ s.height := by
  simp only [holds, decide_eq_true_eq, height]

namespace Machine

variable {α β : Type} {code : Code} {m m' t u : Machine} {limit : Nat}

def after (x : Action α) (m : Machine) : Machine :=
  match x m with
  | .ok _ m' => m'
  | .error _ m' => m'

theorem after_of_ok {x : Action α} {a : α} (h : x m = .ok a m') : after x m = m' := by
  simp only [after, h]

theorem after_of_error {x : Action α} {f : Fault} (h : x m = .error f m') : after x m = m' := by
  simp only [after, h]

structure Stays (m m' : Machine) : Prop where
  saved : m'.stack.saved = m.stack.saved
  base : m'.stack.base = m.stack.base
  limit : m'.stack.limit = m.stack.limit
  returns : m'.returns = m.returns
  above : m.stack.base ≤ m.stack.height → m.stack.base ≤ m'.stack.height
  room : m.stack.height + m.stack.saved.size ≤ m.stack.limit →
    m'.stack.height + m.stack.saved.size ≤ m.stack.limit

theorem stays_of_eq (hs : m'.stack = m.stack) (hr : m'.returns = m.returns) : Stays m m' := by
  refine ⟨?_, ?_, ?_, hr, ?_, ?_⟩
  all_goals rw [hs]
  · exact id
  · exact id

theorem Stays.trans (h : Stays m t) (g : Stays t m') : Stays m m' where
  saved := g.saved.trans h.saved
  base := g.base.trans h.base
  limit := g.limit.trans h.limit
  returns := g.returns.trans h.returns
  above := fun hm => h.base ▸ g.above (h.base.symm ▸ h.above hm)
  room := fun hm => by
    have := g.room (by rw [h.saved, h.limit]; exact h.room hm)
    rwa [h.saved, h.limit] at this

def Staying (x : Action α) : Prop := ∀ m, Stays m (after x m)

theorem Staying.bind {x : Action α} {f : α → Action β} (hx : Staying x) (hf : ∀ a, Staying (f a)) :
    Staying (x >>= f) := by
  intro m
  cases h : x m with
  | error g t =>
    rw [after_of_error (bind_of_error h), ← after_of_error h]
    exact hx m
  | ok a t =>
    have ht := hx m
    rw [after_of_ok h] at ht
    have hbind : after (x >>= f) m = after (f a) t := by simp only [after, bind_of_ok h]
    rw [hbind]
    exact ht.trans (hf a t)

theorem staying_fetch (source : Operand) : Staying (fetch source) := by
  intro m
  simp only [after, fetch]
  cases m.read source <;> exact stays_of_eq rfl rfl

theorem stays_set (m : Machine) (i : Nat) (v : Value) :
    Stays m { m with stack := m.stack.set i v } := by
  refine ⟨rfl, rfl, rfl, rfl, ?_, ?_⟩
  all_goals
    rw [Stack.height_set]
    exact id

theorem staying_store (target : Operand) (v : Value) : Staying (store target v) := by
  intro m
  unfold after
  cases target with
  | stack offset =>
    simp only [store]
    cases m.stack.index? offset with
    | none => exact stays_of_eq rfl rfl
    | some i => exact stays_set m i v
  | heap address =>
    by_cases h : m.heap.isLive address
    · simp only [store, h, if_true]
      exact stays_of_eq rfl rfl
    · simp only [store, h]
      exact stays_of_eq rfl rfl
  | register id =>
    by_cases h : id = 0
    · simp only [store, h, if_true]
      exact stays_of_eq rfl rfl
    · simp only [store, h, if_false]
      exact stays_of_eq rfl rfl
  | constant c => exact stays_of_eq rfl rfl

theorem staying_push (v : Value) : Staying (push v) := by
  intro m
  by_cases h : m.stack.hasRoom
  · rw [after_of_ok (if_pos h)]
    refine ⟨rfl, rfl, rfl, rfl, ?_, ?_⟩
    · simp only [Stack.height_push]
      omega
    · have := Stack.hasRoom_iff.1 h
      simp only [Stack.height_push]
      omega
  · rw [after_of_error (if_neg h)]
    exact stays_of_eq rfl rfl

/-- Cells are removed only as far as the current frame has some. -/
theorem stays_drop {n : Nat} (h : m.stack.holds n) :
    Stays m { m with stack := m.stack.drop n } := by
  have := Stack.holds_iff.1 h
  refine ⟨rfl, rfl, rfl, rfl, ?_, ?_⟩
  all_goals
    simp only [Stack.height_drop]
    omega

theorem staying_drop (n : Nat) : Staying (drop n) := by
  intro m
  by_cases h : m.stack.holds n
  · rw [after_of_ok (if_pos h)]
    exact stays_drop h
  · rw [after_of_error (if_neg h)]
    exact stays_of_eq rfl rfl

theorem staying_pop : Staying pop := by
  intro m
  by_cases h : m.stack.holds 1
  · simp only [after, pop, Stack.top?, h, if_true]
    cases m.stack.cells.back? with
    | none => exact stays_of_eq rfl rfl
    | some v => exact stays_drop h
  · simp only [after, pop, Stack.top?, h]
    exact stays_of_eq rfl rfl

theorem staying_combine (op : Operation) (a b : Value) : Staying (combine op a b) := by
  intro m
  simp only [after, combine]
  cases op.apply a b <;> exact stays_of_eq rfl rfl

theorem staying_allocate (address : Nat) : Staying (allocate address) := by
  intro m
  by_cases h : m.heap.isLive address
  · rw [after_of_error (if_pos h)]
    exact stays_of_eq rfl rfl
  · rw [after_of_ok (if_neg h)]
    exact stays_of_eq rfl rfl

theorem staying_release (address : Nat) : Staying (release address) := by
  intro m
  by_cases h : m.heap.isLive address
  · rw [after_of_ok (if_pos h)]
    exact stays_of_eq rfl rfl
  · rw [after_of_error (if_neg h)]
    exact stays_of_eq rfl rfl

def Confined : Instruction → Prop
  | .call _ | .result _ => False
  | _ => True

theorem staying_execute {i : Instruction} (hi : Confined i) : Staying (execute i) := by
  cases i with
  | move target source => exact (staying_fetch source).bind fun v => staying_store target v
  | push source => exact (staying_fetch source).bind staying_push
  | pop target => exact staying_pop.bind fun v => staying_store target v
  | drop n => exact staying_drop n
  | binary op target source =>
    exact (staying_fetch target).bind fun a => (staying_fetch source).bind fun b =>
      (staying_combine op a b).bind fun v => staying_store target v
  | not target => exact (staying_fetch target).bind fun v => staying_store target _
  | call target => cases hi
  | result source => cases hi
  | exit source => exact (staying_fetch source).bind fun v _ => stays_of_eq rfl rfl
  | goto target => exact fun _ => stays_of_eq rfl rfl
  | jumpUnless source target =>
    refine (staying_fetch source).bind fun v => ?_
    show Staying (if v.isTruthy then pure () else jump target)
    split <;> exact fun _ => stays_of_eq rfl rfl
  | new address => exact staying_allocate address
  | release address => exact staying_release address

inductive Results (source : Operand) (m : Machine) : EStateM.Result Fault Machine Unit → Prop
  | unreadable {f : Fault} : m.read source = .error f → Results source m (.error f m)
  | outside : m.returns = [] → Results source m (.error .returnOutsideFunction m)
  | returned {v : Value} {base pc : Nat} {returns : List Nat} : m.read source = .ok v →
      m.stack.saved.back? = some base → m.returns = pc :: returns →
      Results source m
        (.ok () { m with stack := m.stack.popFrame base, returns, pc, accumulator := v })

theorem results_execute (source : Operand) (h : m.stack.saved.size = m.returns.length) :
    Results source m (execute (.result source) m) := by
  cases hv : m.read source with
  | error f =>
    rw [execute, bind_of_error (fetch_of_error hv)]
    exact .unreadable hv
  | ok v =>
    rw [execute, bind_of_ok (fetch_of_ok hv)]
    cases hr : m.returns with
    | nil =>
      have hleave : leave m = .error .returnOutsideFunction m := by simp only [leave, hr]
      rw [bind_of_error hleave]
      exact .outside hr
    | cons pc returns =>
      have hleave : leave m = .ok () { m with pc, returns } := by simp only [leave, hr]
      obtain ⟨base, hb⟩ : ∃ base, m.stack.saved.back? = some base := by
        rw [hr] at h
        have hlt : m.stack.saved.size - 1 < m.stack.saved.size := by simp [h]
        exact ⟨_, Array.back?_eq_getElem? ▸ Array.getElem?_eq_getElem hlt⟩
      have hframe : popFrame { m with pc, returns } =
          .ok () { m with stack := m.stack.popFrame base, pc, returns } := by
        simp only [popFrame, hb]
      rw [bind_of_ok hleave, bind_of_ok hframe]
      exact .returned hv hb hr

inductive Shifts (m m' : Machine) : Prop
  | stays : Stays m m' → Shifts m m'
  | enters : m.stack.hasRoom → m'.stack = m.stack.pushFrame → m'.returns = (m.pc + 1) :: m.returns →
      Shifts m m'
  | leaves {base : Nat} : m.stack.saved.back? = some base → m'.stack = m.stack.popFrame base →
      m.returns = m'.pc :: m'.returns → Shifts m m'

theorem step_of_upcoming {i : Instruction} (hi : m.upcoming? code = some i) :
    step code m =
      match execute i m.fetched with
      | .ok _ t => .ok () t
      | .error f t => .error f { t with status := .faulted } := by
  unfold upcoming? at hi
  split at hi
  case isFalse => cases hi
  case isTrue h =>
    have hstep : step code m =
        match cycle code m with
        | .ok _ t => .ok () t
        | .error f t => .error f { t with status := .faulted } := if_pos h.1
    have hcycle : cycle code m = execute i m.fetched := by
      simp only [cycle, fetched, h.2, hi]
    rw [hstep, hcycle]

theorem upcoming?_of_step (h : step code m = .ok () m') : m.upcoming? code = code.get? m.pc := by
  by_cases hr : m.status = .running
  · cases he : m.exhausted? with
    | none => rw [upcoming?, if_pos ⟨hr, he⟩]
    | some limit =>
      rw [step, if_pos hr] at h
      simp only [cycle, he] at h
      cases h
  · rw [step, if_neg hr] at h
    cases h

theorem after_step_of_upcoming {i : Instruction} (hi : m.upcoming? code = some i) :
    ∃ status, after (step code) m = { after (execute i) m.fetched with status } := by
  simp only [after, step_of_upcoming hi]
  cases execute i m.fetched <;> exact ⟨_, rfl⟩

theorem stays_step_of_not_upcoming (hi : m.upcoming? code = none) :
    Stays m (after (step code) m) := by
  by_cases hr : m.status = .running
  · simp only [after, step, if_pos hr, cycle]
    cases he : m.exhausted? with
    | some limit => exact stays_of_eq rfl rfl
    | none =>
      rw [upcoming?, if_pos ⟨hr, he⟩] at hi
      simp only [hi]
      exact stays_of_eq rfl rfl
  · simp only [after, step, if_neg hr]
    exact stays_of_eq rfl rfl

theorem shifts_execute (i : Instruction) (h : m.stack.saved.size = m.returns.length) :
    Shifts m (after (execute i) m.fetched) := by
  by_cases hi : Confined i
  · have hfetched : Stays m m.fetched := stays_of_eq rfl rfl
    exact .stays (hfetched.trans (staying_execute hi m.fetched))
  cases i with
  | call target =>
    by_cases hroom : m.stack.hasRoom
    · rw [after_of_ok (if_pos hroom)]
      exact .enters hroom rfl rfl
    · rw [after_of_error (if_neg hroom)]
      exact .stays (stays_of_eq rfl rfl)
  | result source =>
    have hresults : Results source m.fetched _ := results_execute source h
    unfold after
    generalize execute (.result source) m.fetched = r at hresults ⊢
    cases hresults with
    | unreadable _ => exact .stays (stays_of_eq rfl rfl)
    | outside _ => exact .stays (stays_of_eq rfl rfl)
    | returned _ hb hr => exact .leaves hb rfl hr
  | _ => exact absurd trivial hi

theorem shifts_step (code : Code) (h : m.stack.saved.size = m.returns.length) :
    Shifts m (after (step code) m) := by
  cases hi : m.upcoming? code with
  | none => exact .stays (stays_step_of_not_upcoming hi)
  | some i =>
    obtain ⟨status, ht⟩ := after_step_of_upcoming hi
    rw [ht]
    cases shifts_execute i h with
    | stays hs => exact .stays (hs.trans (stays_of_eq rfl rfl))
    | enters hroom hs hr => exact .enters hroom hs hr
    | leaves hb hs hr => exact .leaves hb hs hr

/-- The frames lie one above the other within the limit, each with a return address but the
outermost. -/
structure Nested (limit : Nat) (m : Machine) : Prop where
  bases : m.stack.bases.Pairwise (· ≤ ·)
  base_le : m.stack.base ≤ m.stack.height
  balanced : m.stack.saved.size = m.returns.length
  room : m.stack.height + m.stack.saved.size ≤ limit
  limit : m.stack.limit = limit

theorem nested_start (config : Config) : Nested config.stackSize (start config) where
  bases := List.pairwise_singleton _ _
  base_le := Nat.le_refl 0
  balanced := rfl
  room := Nat.zero_le _
  limit := rfl

theorem Nested.le_base (h : Nested limit m) : ∀ b ∈ m.stack.bases, b ≤ m.stack.base := by
  intro b hb
  rcases List.mem_append.1 hb with hb | hb
  · exact (List.pairwise_append.1 h.bases).2.2 b hb _ (List.mem_singleton.2 rfl)
  · exact Nat.le_of_eq (List.mem_singleton.1 hb)

theorem Nested.stays (h : Nested limit m) (hs : Stays m m') : Nested limit m' where
  bases := by
    simp only [Stack.bases, hs.saved, hs.base]
    exact h.bases
  base_le := by
    rw [hs.base]
    exact hs.above h.base_le
  balanced := by rw [hs.saved, hs.returns, h.balanced]
  room := by
    have := hs.room (h.limit ▸ h.room)
    rwa [hs.saved, ← h.limit]
  limit := hs.limit.trans h.limit

theorem Nested.enters (h : Nested limit m) (hroom : m.stack.hasRoom)
    (hs : m'.stack = m.stack.pushFrame) (hr : m'.returns = (m.pc + 1) :: m.returns) :
    Nested limit m' where
  bases := by
    rw [hs, Stack.bases_pushFrame]
    refine List.pairwise_append.2 ⟨h.bases, List.pairwise_singleton _ _, fun b hb x hx => ?_⟩
    rw [List.mem_singleton.1 hx]
    exact Nat.le_trans (h.le_base b hb) h.base_le
  base_le := by
    rw [hs]
    exact Nat.le_refl _
  balanced := by
    rw [hs, hr, List.length_cons, ← h.balanced]
    exact Array.size_push _
  room := by
    have hlt := Stack.hasRoom_iff.1 hroom
    have hsize : m.stack.pushFrame.saved.size = m.stack.saved.size + 1 := Array.size_push _
    rw [hs, hsize, Stack.height_pushFrame, ← h.limit]
    omega
  limit := by
    rw [hs]
    exact h.limit

theorem Nested.leaves {base : Nat} (h : Nested limit m) (hb : m.stack.saved.back? = some base)
    (hs : m'.stack = m.stack.popFrame base) (hr : m.returns = m'.pc :: m'.returns) :
    Nested limit m' where
  bases := by
    rw [hs, Stack.bases_popFrame hb]
    exact h.bases.sublist (List.dropLast_sublist _)
  base_le := by
    have hmem : base ∈ m.stack.bases :=
      List.mem_append_left _ (Array.mem_toList_iff.2 (Array.mem_of_back? hb))
    rw [hs, Stack.height_popFrame, Nat.min_eq_left h.base_le]
    exact h.le_base base hmem
  balanced := by
    have hsize : (m.stack.popFrame base).saved.size = m.stack.saved.size - 1 := Array.size_pop
    have hbalanced := h.balanced
    rw [hr, List.length_cons] at hbalanced
    rw [hs]
    omega
  room := by
    have hsize : (m.stack.popFrame base).saved.size = m.stack.saved.size - 1 := Array.size_pop
    have hroom := h.room
    have hheight := h.base_le
    rw [hs, hsize, Stack.height_popFrame]
    omega
  limit := by
    rw [hs]
    exact h.limit

theorem Nested.shifts (h : Nested limit m) (hs : Shifts m m') : Nested limit m' := by
  cases hs with
  | stays hs => exact h.stays hs
  | enters hroom hs hr => exact h.enters hroom hs hr
  | leaves hb hs hr => exact h.leaves hb hs hr

theorem Nested.step (h : Nested limit m) (code : Code) : Nested limit (after (step code) m) :=
  h.shifts (shifts_step code h.balanced)

end Machine
end Sigil
