import Mathlib.Logic.Relation
import Sigil.Proofs.Course.Advance
import Sigil.Proofs.Course.Sections
import Sigil.Proofs.Machine.Stopping
import Sigil.Proofs.Safety
import Sigil.Proofs.Scoping.Compilation

/-!
Where a machine that runs a program stands: in a frame of one of its sections, above those of its
callers, at a place that knows of the machine. A step leads on in the frame, or into a frame of a
function that is called, or back into that of the caller.
-/
namespace Sigil

open Machine
open Draft (fixed)
open Relation (ReflTransGen)

/-- A frame for the code of a section, with the bases of the frames below and the addresses to return
to, innermost first. -/
structure Activation where
  home : Section
  base : Nat
  saved : List Nat
  returns : List Nat

namespace Activation

variable (sections : List Section)

inductive Calls (a : Activation) : Activation → Prop
  | intro (s : Section) (f : Function) (x y : List Draft)
      (hx : a.home.draft = x ++ .call f.name :: y) (hs : s ∈ sections) (hf : s.part = .function f) :
      a.Calls ⟨s, a.base + (Point.bottom.behind x).height, a.base :: a.saved,
        (a.home.start + x.length + 1) :: a.returns⟩

def Active (a : Activation) : Prop :=
  ∃ s ∈ sections, s.part = .body ∧ ReflTransGen (Calls sections) ⟨s, 0, [], []⟩ a

end Activation

structure Stands (sections : List Section) (m : Machine) (a : Activation) : Prop where
  active : a.Active sections
  base : m.stack.base = a.base
  saved : m.stack.saved.toList.reverse = a.saved
  returns : m.returns = a.returns
  place : ∃ P, a.home.Knows m.pc P ∧ P.Describes m

inductive Turn (p : Program) (sections : List Section) (m : Machine) (a : Activation) :
    EStateM.Result Fault Machine Unit → Prop
  | goes {m' : Machine} (h : Stands sections m' a) (hr : m'.status = .running)
      (hcells : ∀ i, i + a.home.part.arity < a.base → m'.stack.cells[i]? = m.stack.cells[i]?) :
      Turn p sections m a (.ok () m')
  | enters {m' : Machine} {b : Activation} (hb : Activation.Calls sections a b)
      (h : Stands sections m' b) (hr : m'.status = .running)
      (hcells : m'.stack.cells = m.stack.cells) : Turn p sections m a (.ok () m')
  | leaves {m' : Machine} (hcaller : ∃ c : Activation, c.Active sections ∧ c.Calls sections a)
      (h : ∀ c : Activation, c.Active sections → c.Calls sections a → Stands sections m' c)
      (hr : m'.status = .running)
      (hcells : ∀ i < a.base, m'.stack.cells[i]? = m.stack.cells[i]?) : Turn p sections m a (.ok () m')
  | exits {m' : Machine} (hs : m'.status = .halted) (hheap : m'.heap = [])
      (hstack : m'.stack = m.stack) : Turn p sections m a (.ok () m')
  | faults {f : Fault} {m' : Machine} (hs : m'.status = .faulted) (hstack : m'.stack = m.stack)
      (hheap : m'.heap = m.heap)
      (hempty : (∀ limit, f ≠ .stepLimitExceeded limit) → m.heap = [])
      (hover : ∀ limit, f = .stackOverflow limit → ¬ m.stack.hasRoom ∧
        (Draft.callees a.home.draft = [] → m.stack.height < a.base + (p.tree a.home.part).need)) :
      Turn p sections m a (.error f m')

variable {p : Program} {code : Code} {entry : String → Nat} {sections : List Section}
  {a b c : Activation} {m : Machine}

namespace Program.Sectioned

/-- A function that is called has a section. -/
theorem exists_function {name : String} {n : Nat} (h : p.Sectioned code entry sections)
    (ha : p.arity? name = some n) :
    ∃ s ∈ sections, ∃ f, s.part = .function f ∧ f.name = name ∧ f.parameters.length = n := by
  obtain ⟨f, hf, hname, hn⟩ := (arity?_eq_some h.names name n).1 ha
  obtain ⟨s, hs, hpart⟩ := h.exists_section (Program.mem_parts hf)
  exact ⟨s, hs, f, hpart, hname, hn⟩

theorem arity_eq {s : Section} {f : Function} {n : Nat} (h : p.Sectioned code entry sections)
    (hs : s ∈ sections) (hf : s.part = .function f) (ha : p.arity? f.name = some n) :
    f.parameters.length = n := by
  have harity := (arity?_eq_some h.names f.name _).2 ⟨f, h.mem_functions hs hf, rfl, rfl⟩
  exact Option.some.inj (harity.symm.trans ha)

/-- Both copies of the arguments of a call lie in the frame of the caller. -/
theorem room (h : p.Sectioned code entry sections) (ha : a.home ∈ sections)
    (hab : a.Calls sections b) : a.base + 2 * b.home.part.arity ≤ b.base := by
  obtain ⟨s, f, x, y, hx, hs, hf⟩ := hab
  have hspot := h.spot ha hx
  cases hspot with
  | inner hd _ _ =>
    cases hd with
    | call _ harity hn =>
      have hlength := h.arity_eq hs hf harity
      show a.base + 2 * s.part.arity ≤ a.base + (Point.bottom.behind x).height
      rw [hf, Part.arity, hlength]
      exact Nat.add_le_add_left hn _

end Program.Sectioned

namespace Activation

theorem Active.home_mem (ha : a.Active sections) : a.home ∈ sections := by
  obtain ⟨s, hs, -, hcalls⟩ := ha
  rcases hcalls.cases_tail with rfl | ⟨c, -, hc⟩
  · exact hs
  · obtain ⟨_, _, _, _, _, hs, _⟩ := hc
    exact hs

theorem Active.calls (ha : a.Active sections) (hab : a.Calls sections b) : b.Active sections := by
  obtain ⟨s, hs, hpart, hcalls⟩ := ha
  exact ⟨s, hs, hpart, hcalls.tail hab⟩

/-- A frame of a function has been opened by a call. -/
theorem Active.exists_caller {f : Function} (ha : a.Active sections)
    (hf : a.home.part = .function f) : ∃ c : Activation, c.Active sections ∧ c.Calls sections a := by
  obtain ⟨s, hs, hpart, hcalls⟩ := ha
  rcases hcalls.cases_tail with rfl | ⟨c, hc, hca⟩
  · rw [hpart] at hf
    cases hf
  · exact ⟨c, ⟨s, hs, hpart, hc⟩, hca⟩

/-- What holds of the frame of the body and is passed on by calls holds of all frames. -/
theorem Active.induct {motive : Activation → Prop} (ha : a.Active sections)
    (body : ∀ s ∈ sections, s.part = .body → motive ⟨s, 0, [], []⟩)
    (call : ∀ b c : Activation, b.Active sections → b.Calls sections c → motive b → motive c) :
    motive a := by
  obtain ⟨s, hs, hpart, hcalls⟩ := ha
  induction hcalls with
  | refl => exact body s hs hpart
  | tail hb hbc ih => exact call _ _ ⟨s, hs, hpart, hb⟩ hbc ih

theorem Active.balanced (ha : a.Active sections) : a.saved.length = a.returns.length := by
  refine ha.induct (motive := fun a => a.saved.length = a.returns.length) (fun _ _ _ => rfl)
    fun b c _ hbc ih => ?_
  cases hbc
  exact congrArg (· + 1) ih

theorem Active.arity_le (h : p.Sectioned code entry sections) (ha : a.Active sections) :
    a.home.part.arity ≤ a.base := by
  refine ha.induct (motive := fun a => a.home.part.arity ≤ a.base) (fun s _ hpart => ?_)
    fun b c hb hbc _ => ?_
  · show s.part.arity ≤ 0
    rw [hpart]
    exact Nat.le_refl 0
  · have := h.room hb.home_mem hbc
    omega

end Activation

namespace Stands

theorem start (h : p.Sectioned code entry sections) (config : Config) :
    ∃ a, Stands sections (Machine.start config) a := by
  obtain ⟨s, rest, rfl, hpart, -⟩ := h.exists_main
  have hs : s ∈ s :: rest := List.mem_cons_self
  have hstart : s.start = 0 := by rw [h.starts s hs, hpart, Part.base]
  refine ⟨⟨s, 0, [], []⟩, ⟨s, hs, hpart, .refl⟩, rfl, rfl, rfl, .bottom, ?_, rfl, rfl⟩
  show s.Knows 0 .bottom
  exact hstart ▸ s.knows_start (h.draft_ne_nil hs)

/-- The frame that a call opens. -/
theorem enters {x y : List Draft} {name : String} {n : Nat} (h : p.Sectioned code entry sections)
    (hm : Stands sections m a) (hx : a.home.draft = x ++ .call name :: y)
    (hpc : m.pc = a.home.start + x.length) (hP : (Point.bottom.behind x).Describes m)
    (hb : (Point.bottom.behind x).buffer = none) (harity : p.arity? name = some n) :
    ∃ b, a.Calls sections b ∧ b.home.start = entry name ∧
      Stands sections (m.called (entry name)) b := by
  obtain ⟨s, hs, f, hf, rfl, -⟩ := h.exists_function harity
  have hcalls := Activation.Calls.intro s f x y hx hs hf
  have hstart := h.starts s hs
  rw [hf, Part.base] at hstart
  refine ⟨_, hcalls, hstart, hm.active.calls hcalls, ?_, ?_, ?_, .bottom, ?_, rfl, ?_⟩
  · show m.stack.height = _
    rw [hP.height, hm.base]
  · show (m.stack.saved.push m.stack.base).toList.reverse = _
    rw [Array.toList_push, List.reverse_append, hm.saved, hm.base]
    rfl
  · show (m.pc + 1) :: m.returns = _
    rw [hpc, hm.returns]
  · show s.Knows (entry f.name) .bottom
    exact hstart ▸ s.knows_start (h.draft_ne_nil hs)
  · show m.heap.map _ = []
    rw [hP.heap_nil hb]
    rfl

/-- The frame of the caller, when a result has been worked out. -/
theorem leaves {base pc : Nat} {returns : List Nat} {v : Value}
    (h : p.Sectioned code entry sections) (hm : Stands sections m a)
    (hP : Point.bottom.Describes m) (hb : m.stack.saved.back? = some base)
    (hr : m.returns = pc :: returns) (hc : c.Active sections) (hca : c.Calls sections a) :
    Stands sections
      { m.fetched with stack := m.stack.popFrame base, returns, pc, accumulator := v } c := by
  obtain ⟨hactive, hbase, hsaved, hreturns, -⟩ := hm
  obtain ⟨s, f, x, y, hx, hs, hf⟩ := hca
  have hspot := h.spot hc.home_mem hx
  have hlast : m.stack.saved.toList = c.saved.reverse ++ [c.base] := by
    rw [← List.reverse_reverse m.stack.saved.toList, hsaved]
    exact List.reverse_cons
  rw [hr] at hreturns
  obtain ⟨rfl, rfl⟩ := List.cons.inj hreturns
  rw [← Array.getLast?_toList, hlast, List.getLast?_concat] at hb
  obtain rfl := Option.some.inj hb
  cases hspot with
  | inner hd _ hnext =>
    cases hd with
    | call hbuffer _ _ =>
      refine ⟨hc, rfl, ?_, rfl, _, hnext, ?_, ?_⟩
      · show m.stack.saved.pop.toList.reverse = _
        rw [Array.toList_pop, hlast, List.dropLast_concat, List.reverse_reverse]
      · have hheight : m.stack.height = m.stack.base + 0 := hP.height
        show (m.stack.popFrame c.base).height = c.base + (Point.bottom.behind x).height
        rw [Stack.height_popFrame, hheight, Nat.add_zero, Nat.min_self, hbase]
      · show m.heap.map _ = (Point.bottom.behind x).buffer.toList
        rw [hP.heap_nil rfl, hbuffer]
        rfl

/-- A step that a limit or a fault of an instruction ends. -/
theorem turn_of_fault {f : Fault} (hempty : (∀ limit, f ≠ .stepLimitExceeded limit) → m.heap = [])
    (hover : ∀ limit, f = .stackOverflow limit → ¬ m.stack.hasRoom ∧
      (Draft.callees a.home.draft = [] → m.stack.height < a.base + (p.tree a.home.part).need)) :
    Turn p sections m a (faulting (.error f m.fetched)) :=
  .faults rfl rfl rfl hempty hover

/-- The last instruction of a section halts the machine or returns to the caller. -/
theorem turn_of_last (h : p.Sectioned code entry sections) (hm : Stands sections m a)
    (hr : m.status = .running) (hP : Point.bottom.Describes m) :
    Turn p sections m a (faulting (execute a.home.part.last m.fetched)) := by
  cases hpart : a.home.part with
  | body => exact .exits rfl (hP.heap_nil rfl) rfl
  | function f =>
    obtain ⟨c, hc, hca⟩ := hm.active.exists_caller hpart
    have hsize : m.stack.saved.size = m.returns.length := by
      rw [hm.returns, ← hm.active.balanced, ← hm.saved, List.length_reverse, Array.length_toList]
    have hresults : Results .accumulator m.fetched _ := results_execute .accumulator hsize
    show Turn p sections m a (faulting (execute (.result .accumulator) m.fetched))
    generalize execute (.result .accumulator) m.fetched = r at hresults ⊢
    cases hresults with
    | unreadable hv => cases hv
    | outside hreturns =>
      have hreturns : m.returns = [] := hreturns
      rw [hm.returns] at hreturns
      cases hca
      cases hreturns
    | returned _ hb hreturns =>
      refine .leaves ⟨c, hc, hca⟩ (fun c hc hca => hm.leaves h hP hb hreturns hc hca) hr fun i hi => ?_
      exact Stack.getElem?_shrink _ (hm.base.symm ▸ hi)

/-- Any other instruction goes on in the frame, or opens one. -/
theorem turn_of_fits {x y : List Draft} {d : Draft} (h : p.Sectioned code entry sections)
    (hm : Stands sections m a) (hr : m.status = .running) (hx : a.home.draft = x ++ d :: y)
    (hpc : m.pc = a.home.start + x.length) (hP : (Point.bottom.behind x).Describes m)
    (hd : (Point.bottom.behind x).Fits (p.limits a.home.part) d)
    (hjump : ∀ target, d.jump? = some target → a.home.Knows target (Point.bottom.behind x))
    (hnext : a.home.Knows (a.home.start + x.length + 1) ((Point.bottom.behind x).after d)) :
    Turn p sections m a (faulting (execute (d.link entry) m.fetched)) := by
  have hbase : a.home.part.arity ≤ m.stack.base := hm.base ▸ hm.active.arity_le h
  have heffect : Point.Effect _ entry _ d m (execute (d.link entry) m.fetched) :=
    Point.effect_of_fits hd hP hbase
  generalize execute (d.link entry) m.fetched = r at heffect ⊢
  cases heffect with
  | @advances m' g =>
    refine .goes ⟨hm.active, g.base.trans hm.base, ?_, g.returns.trans hm.returns, ?_⟩
      (g.status.trans hr) fun i hi => g.cells i (hm.base.symm ▸ hi)
    · rw [g.saved, hm.saved]
    · rcases g.pc with hpc' | ⟨ht, hafter⟩
      · exact ⟨_, by rw [hpc', hpc]; exact hnext, g.point⟩
      · exact ⟨_, hjump _ ht, hafter ▸ g.point⟩
  | enters hcall =>
    subst hcall
    cases hd with
    | call hb harity _ =>
      obtain ⟨b, hab, -, hb⟩ := hm.enters h hx hpc hP hb harity
      exact .enters hab hb hr rfl
  | overflows hb hroom hheight =>
    refine turn_of_fault (fun _ => hP.heap_nil hb) fun _ _ => ⟨hroom, fun hcallees => ?_⟩
    have hcallee : d.callee? = none := by
      rw [hx, Draft.callees, List.filterMap_eq_nil_iff] at hcallees
      exact hcallees d (List.mem_append_right x List.mem_cons_self)
    rw [hP.height, hm.base]
    exact Nat.add_lt_add_left (hheight hcallee) _
  | mismatches hb =>
    refine turn_of_fault (fun _ => hP.heap_nil hb) fun limit h => ?_
    cases h

/-- What a step does in a machine that stands somewhere in the code. -/
theorem turn (h : p.Sectioned code entry sections) (hm : Stands sections m a)
    (hr : m.status = .running) : Turn p sections m a (step code m) := by
  cases hx : m.exhausted? with
  | some limit =>
    rw [step_exhausted hr hx]
    exact .faults rfl rfl rfl (fun hne => absurd rfl (hne limit)) nofun
  | none =>
    obtain ⟨P, ⟨x, d, y, hdraft, hpc, rfl⟩, hP⟩ := hm.place
    have hget : code.get? m.pc = some (d.link entry) := hpc ▸ h.get hm.active.home_mem hdraft
    rw [step_of_allowed code hr hx, hget]
    cases h.spot hm.active.home_mem hdraft with
    | last hx => exact turn_of_last h hm hr (hx ▸ hP)
    | inner hd hjump hnext => exact hm.turn_of_fits h hr hdraft hpc hP hd hjump hnext

end Stands

/-- A machine that runs a compiled program stands somewhere in its code. -/
theorem stands_of_reachable {config : Config} (h : p.Sectioned code entry sections)
    (hm : Reachable code config m) (hr : m.status = .running) : ∃ a, Stands sections m a := by
  induction hm with
  | init => exact Stands.start h config
  | @next m m' _ hstep ih =>
    obtain ⟨a, ha⟩ := ih (running_of_step hstep)
    have hturn := ha.turn h (running_of_step hstep)
    rw [hstep] at hturn
    cases hturn with
    | goes h _ _ => exact ⟨a, h⟩
    | enters _ h _ _ => exact ⟨_, h⟩
    | leaves hcaller h _ _ =>
      obtain ⟨c, hc, hca⟩ := hcaller
      exact ⟨c, h c hc hca⟩
    | exits hs _ _ =>
      rw [hs] at hr
      cases hr
  | fault _ hfault _ => exact absurd hr (not_running_of_fault hfault)

end Sigil
