import Mathlib.Algebra.GroupWithZero.Nat
import Sigil.Proofs.Course.Standing

/-!
The height of the stack: no frame is higher than the tree needs whose code it is for, however many
rounds its loops take, so that the stack is no higher than the trees of all frames need together.
-/
namespace Sigil

open Machine

variable {p : Program} {code : Code} {entry : String → Nat} {sections : List Section}
  {a b : Activation} {config : Config} {m : Machine}

theorem Machine.Reachable.nested (hm : Reachable code config m) : Nested config.stackSize m := by
  induction hm with
  | init => exact nested_start config
  | next _ hstep ih => exact after_of_ok hstep ▸ ih.step code
  | fault _ hfault ih => exact after_of_error hfault ▸ ih.step code

def Program.needAt (p : Program) (code : Code) (addresses : List Nat) : Nat :=
  (addresses.map fun address => (p.treeAt code address).need).sum

namespace Activation

/-- A frame has been opened no higher than its callers need. -/
theorem Active.base_le (h : p.Sectioned code entry sections) (ha : a.Active sections) :
    a.base ≤ p.needAt code a.returns := by
  refine ha.induct (motive := fun a => a.base ≤ p.needAt code a.returns)
    (fun _ _ _ => Nat.zero_le _) fun b c hb hbc ih => ?_
  obtain ⟨s, f, x, y, hx, hs, hf⟩ := hbc
  have hheight := h.height_le hb.home_mem ⟨x, _, y, hx, rfl, rfl⟩
  cases h.spot hb.home_mem hx with
  | inner _ _ hnext =>
    have htree := h.treeAt_eq hb.home_mem hnext.has
    show b.base + _ ≤ (p.treeAt code _).need + p.needAt code b.returns
    rw [htree]
    omega

/-- Without calls, there is only the frame of the body. -/
theorem Active.eq_body (h : p.Sectioned code entry sections) (hp : p.body.callees = [])
    (ha : a.Active sections) : a.home.part = .body ∧ a.base = 0 ∧ a.saved = [] := by
  refine ha.induct (motive := fun a => a.home.part = .body ∧ a.base = 0 ∧ a.saved = [])
    (fun _ _ hpart => ⟨hpart, rfl, rfl⟩) fun b c hb hbc ih => ?_
  obtain ⟨s, f, x, y, hx, hs, hf⟩ := hbc
  have hcallees := h.callees_eq hb.home_mem
  rw [ih.1, Program.tree, hp, hx, Draft.callees_append, Draft.callees_call] at hcallees
  exact absurd hcallees (List.append_ne_nil_of_right_ne_nil _ (List.cons_ne_nil _ _))

end Activation

/-- The current frame keeps to what its tree needs, and all frames together to what all their trees
need. -/
theorem Stands.height_le (h : p.Sectioned code entry sections) (hm : Stands sections m a) :
    m.stack.height ≤ m.stack.base + (p.treeAt code m.pc).need ∧
      m.stack.height ≤ p.needAt code (m.pc :: m.returns) := by
  obtain ⟨P, hknows, hP⟩ := hm.place
  have hheight := h.height_le hm.active.home_mem hknows
  have htree := h.treeAt_eq hm.active.home_mem hknows.has
  have hbase := hm.active.base_le h
  have hneed : p.needAt code (m.pc :: m.returns) =
      (p.treeAt code m.pc).need + p.needAt code m.returns := List.sum_cons
  rw [← hm.base, ← hm.returns] at hbase
  rw [hneed, htree, hP.height]
  omega

/-- A body without calls does not overflow a stack that is as large as it needs. -/
theorem Stands.not_overflow {limit : Nat} {m' : Machine} (h : p.Sectioned code entry sections)
    (hm : Stands sections m a) (hr : m.status = .running) (hp : p.body.callees = [])
    (hneed : p.body.need ≤ m.stack.limit) : step code m ≠ .error (.stackOverflow limit) m' := by
  intro hfault
  obtain ⟨hpart, hbase, hsaved⟩ := hm.active.eq_body h hp
  have hsize : m.stack.saved.size = 0 := by
    rw [← Array.length_toList, ← List.length_reverse, hm.saved, hsaved, List.length_nil]
  have hcallees := h.callees_eq hm.active.home_mem
  have hturn := hm.turn h hr
  rw [hpart, Program.tree, hp] at hcallees
  rw [hfault] at hturn
  cases hturn with
  | faults _ _ _ _ hover =>
    obtain ⟨hroom, hheight⟩ := hover limit rfl
    have hlt := hheight hcallees
    rw [Stack.hasRoom_iff] at hroom
    rw [hpart, Program.tree, hbase] at hlt
    omega

/-- Bounds on the stack that are known from the tree. -/
theorem Program.height_le_need (h : p.compile = .ok code) (hm : Reachable code config m) :
    (m.status = .running →
      m.stack.height ≤ m.stack.base + (p.treeAt code m.pc).need ∧
      m.stack.height + m.stack.saved.size ≤
        p.needAt code (m.pc :: m.returns) + m.stack.saved.size) ∧
    (p.body.callees = [] → p.body.need ≤ config.stackSize →
      ∀ limit m', step code m ≠ .error (.stackOverflow limit) m') := by
  obtain ⟨entry, sections, hp⟩ := sectioned_of_compile h
  constructor
  · intro hr
    obtain ⟨a, ha⟩ := stands_of_reachable hp hm hr
    obtain ⟨hframe, hall⟩ := ha.height_le hp
    exact ⟨hframe, Nat.add_le_add_right hall _⟩
  · intro hcallees hneed limit m'
    by_cases hr : m.status = .running
    · obtain ⟨a, ha⟩ := stands_of_reachable hp hm hr
      exact ha.not_overflow hp hr hcallees (hm.nested.limit ▸ hneed)
    · rw [step, if_neg hr]
      intro hstep
      cases hstep

/-- A stack that is as high as the trees of its frames need, and one without calls. -/
theorem Program.height_echo :
    (∃ m, Reachable .echo ⟨6, none⟩ m ∧ m.status = .running ∧ m.returns = [6] ∧
      m.stack.height = echo.needAt .echo (m.pc :: m.returns) ∧
      m.stack.height ≤ m.stack.base + (echo.treeAt .echo m.pc).need) ∧
    ∃ m, Reachable .difference ⟨2, none⟩ m ∧ m.stack.height = 2 ∧
      ∀ limit m', step .difference m ≠ .error (.stackOverflow limit) m' :=
  have h : Reachable .echo ⟨6, none⟩ _ := .next (.next (.next (.next (.next (.next (.next (.next
    (.next (.next .init rfl) rfl) rfl) rfl) rfl) rfl) rfl) rfl) rfl) rfl
  have g : Reachable .difference ⟨2, none⟩ _ := .next (.next (.next (.next .init rfl) rfl) rfl) rfl
  ⟨⟨_, h, rfl, rfl, by decide, ((height_le_need compile_echo h).1 rfl).1⟩,
    _, g, rfl, (height_le_need (p := difference) rfl g).2 rfl (by decide)⟩

end Sigil
