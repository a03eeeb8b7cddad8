import Sigil.Proofs.Machine.Run
import Sigil.Code.Linker

/-!
Histories of a code and a linker. Linking gives every call that was remembered the address last bound
to its name, and touches nothing else; it fails at the first call to a name that was never bound, with
the calls before it linked. No call is remembered afterwards.
-/
namespace Sigil

inductive Edit where
  | emit (i : Instruction)
  | label (address : Nat) (name : String)
  | patch (address target : Nat)
  | call (name : String)
  | bind (name : String) (address : Nat)

namespace Edit

def apply : Edit → Linker × Code → Linker × Code
  | emit i, (l, code) => (l, code.emit i)
  | label address name, (l, code) => (l, code.label address name)
  | patch address target, (l, code) => (l, (code.patch? address target).getD code)
  | call name, (l, code) => l.call code name
  | bind name address, (l, code) => (l.bind name address, code)

def applyAll (edits : List Edit) (s : Linker × Code) : Linker × Code :=
  edits.foldl (fun s edit => edit.apply s) s

def assemble (edits : List Edit) : Linker × Code := applyAll edits (.empty, .empty)

def callsFrom (n : Nat) : List Edit → List (Nat × String)
  | [] => []
  | emit _ :: edits => callsFrom (n + 1) edits
  | call name :: edits => (n, name) :: callsFrom (n + 1) edits
  | _ :: edits => callsFrom n edits

def calls (edits : List Edit) : List (Nat × String) := callsFrom 0 edits

def binding? (name : String) : Edit → Option Nat
  | bind bound address => if bound = name then some address else none
  | _ => none

def lastBound (edits : List Edit) (name : String) : Option Nat :=
  (edits.filterMap (binding? name)).getLast?

def isCall : Edit → Bool
  | call _ => true
  | _ => false

end Edit

/-- The calls at the sites have the addresses of their names as targets, and all else is as it was. -/
structure Code.Linked (address : String → Option Nat) (sites : List (Nat × String))
    (code code' : Code) : Prop where
  labels : code'.labels = code.labels
  size : code'.size = code.size
  calls : ∀ site name, (site, name) ∈ sites →
    ∃ target, address name = some target ∧ code'.get? site = some (.call target)
  others : ∀ other, other ∉ sites.map Prod.fst → code'.get? other = code.get? other

structure Code.Recorded (sites : List (Nat × String)) (code : Code) : Prop where
  ordered : sites.Pairwise (·.1 < ·.1)
  calls : ∀ call ∈ sites, ∃ target, code.get? call.1 = some (.call target)

namespace Code

variable {address : String → Option Nat} {sites : List (Nat × String)} {code code' patched : Code}
  {site target : Nat} {name : String}

/-- A call can be patched, and it is a call then. -/
theorem patch?_call (h : ∃ old, code.get? site = some (.call old)) (target : Nat) :
    ∃ patched, code.patch? site target = some patched ∧ patched.labels = code.labels ∧
      patched.get? site = some (.call target) := by
  obtain ⟨old, h⟩ := h
  refine ⟨_, patch?_eq_some.2 ⟨_, .call target, h, rfl, rfl⟩, rfl, ?_⟩
  exact Array.getElem?_setIfInBounds_self_of_lt (lt_size h)

theorem Linked.nil : Linked address [] code code := ⟨rfl, rfl, nofun, fun _ _ => rfl⟩

theorem Linked.cons (ha : address name = some target) (hp : code.patch? site target = some patched)
    (hlabels : patched.labels = code.labels) (hcall : patched.get? site = some (.call target))
    (hsite : site ∉ sites.map Prod.fst) (h : Linked address sites patched code') :
    Linked address ((site, name) :: sites) code code' where
  labels := h.labels.trans hlabels
  size := h.size.trans (size_of_patch? hp)
  calls := by
    intro other known hmem
    rcases List.mem_cons.1 hmem with heq | hmem
    · obtain ⟨rfl, rfl⟩ := Prod.mk.inj heq
      exact ⟨target, ha, (h.others other hsite).trans hcall⟩
    · exact h.calls other known hmem
  others := by
    intro other hother
    obtain ⟨hne, hrest⟩ := not_or.1 (mt List.mem_cons.2 hother)
    exact (h.others other hrest).trans (get?_of_patch? hp hne)

theorem Recorded.not_mem (h : Recorded ((site, name) :: sites) code) :
    site ∉ sites.map Prod.fst := by
  intro hmem
  obtain ⟨call, hcall, hsite⟩ := List.mem_map.1 hmem
  exact absurd hsite (Nat.ne_of_gt ((List.pairwise_cons.1 h.ordered).1 call hcall))

theorem Recorded.emit (h : Recorded sites code) (i : Instruction) : Recorded sites (code.emit i) where
  ordered := h.ordered
  calls := by
    intro call hcall
    obtain ⟨target, htarget⟩ := h.calls call hcall
    exact ⟨target, by rw [get?_emit, if_neg (Nat.ne_of_lt (lt_size htarget)), htarget]⟩

theorem Recorded.call (h : Recorded sites code) (name : String) :
    Recorded (sites ++ [(code.size, name)]) (code.emit Linker.unlinked) where
  ordered := by
    refine List.pairwise_append.2 ⟨h.ordered, List.pairwise_singleton _ _, fun call hcall last hlast => ?_⟩
    obtain ⟨target, htarget⟩ := h.calls call hcall
    rw [List.mem_singleton.1 hlast]
    exact lt_size htarget
  calls := by
    refine List.forall_mem_append.2 ⟨(h.emit _).calls, fun call hcall => ⟨0, ?_⟩⟩
    rw [List.mem_singleton.1 hcall, get?_emit, if_pos rfl]
    rfl

theorem Recorded.patch (h : Recorded sites code) (hp : code.patch? site target = some patched) :
    Recorded sites patched where
  ordered := h.ordered
  calls := by
    intro call hcall
    by_cases hsite : call.1 = site
    · obtain ⟨again, hagain, -, hget⟩ := patch?_call (h.calls call hcall) target
      rw [hsite, hp] at hagain
      cases hagain
      exact ⟨target, hget⟩
    · rw [get?_of_patch? hp hsite]
      exact h.calls call hcall

end Code

namespace Linker

variable {l : Linker} {code patched : Code} {before sites : List (Nat × String)} {site target : Nat}
  {name : String}

theorem linkSites_cons (ha : l.address? name = some target)
    (hp : code.patch? site target = some patched) :
    l.linkSites ((site, name) :: sites) code = l.linkSites sites patched := by
  have hget : (get : EStateM LinkError Code Code) code = .ok code code := rfl
  simp only [linkSites, ha]
  rw [bind_of_ok hget]
  simp only [hp]
  rfl

/-- Calls whose names have an address are linked before linking goes on. -/
theorem exists_linked (hrecorded : Code.Recorded before code)
    (hknown : ∀ call ∈ before, (l.address? call.2).isSome) (sites : List (Nat × String)) :
    ∃ code', Code.Linked l.address? before code code' ∧
      l.linkSites (before ++ sites) code = l.linkSites sites code' := by
  induction before generalizing code with
  | nil => exact ⟨code, .nil, rfl⟩
  | cons call before ih =>
    obtain ⟨site, name⟩ := call
    obtain ⟨hname, hknown⟩ := List.forall_mem_cons.1 hknown
    obtain ⟨target, ha⟩ := Option.isSome_iff_exists.1 hname
    obtain ⟨patched, hp, hlabels, hcall⟩ :=
      Code.patch?_call (hrecorded.calls _ List.mem_cons_self) target
    have hrest : Code.Recorded before code :=
      ⟨(List.pairwise_cons.1 hrecorded.ordered).2, (List.forall_mem_cons.1 hrecorded.calls).2⟩
    obtain ⟨code', hlinked, hrun⟩ := ih (hrest.patch hp) hknown
    exact ⟨code', hlinked.cons ha hp hlabels hcall hrecorded.not_mem,
      (linkSites_cons ha hp).trans hrun⟩

inductive Links (l : Linker) (code : Code) : EStateM.Result LinkError (Linker × Code) Unit → Prop
  | linked {code' : Code} (hknown : ∀ call ∈ l.sites, (l.address? call.2).isSome)
      (h : Code.Linked l.address? l.sites code code') : Links l code (.ok () ({ l with sites := [] }, code'))
  | unresolved {code' : Code} {before after : List (Nat × String)} {site : Nat} {name : String}
      (hsites : l.sites = before ++ (site, name) :: after)
      (hknown : ∀ call ∈ before, (l.address? call.2).isSome) (hname : l.address? name = none)
      (h : Code.Linked l.address? before code code') :
      Links l code (.error (.unresolved name) ({ l with sites := [] }, code'))

theorem links_link (h : Code.Recorded l.sites code) : Links l code (link (l, code)) := by
  cases hfind : l.sites.find? (fun call => (l.address? call.2).isNone) with
  | none =>
    have hknown : ∀ call ∈ l.sites, (l.address? call.2).isSome := by
      intro call hcall
      have hnone := List.find?_eq_none.1 hfind call hcall
      simpa [Option.isSome_iff_ne_none] using hnone
    obtain ⟨code', hlinked, hrun⟩ := exists_linked h hknown []
    rw [List.append_nil] at hrun
    have hlink : link (l, code) = .ok () ({ l with sites := [] }, code') := by
      simp only [link, hrun]
      rfl
    rw [hlink]
    exact .linked hknown hlinked
  | some call =>
    obtain ⟨site, name⟩ := call
    obtain ⟨hnone, before, after, hsites, hbefore⟩ := List.find?_eq_some_iff_append.1 hfind
    have hname : l.address? name = none := Option.isNone_iff_eq_none.1 hnone
    have hknown : ∀ call ∈ before, (l.address? call.2).isSome := by
      intro call hcall
      simpa using hbefore call hcall
    have hrecorded : Code.Recorded before code := by
      rw [hsites] at h
      exact ⟨(List.pairwise_append.1 h.ordered).1, (List.forall_mem_append.1 h.calls).1⟩
    obtain ⟨code', hlinked, hrun⟩ := exists_linked hrecorded hknown ((site, name) :: after)
    have hlink : link (l, code) = .error (.unresolved name) ({ l with sites := [] }, code') := by
      simp only [link, hsites, hrun, linkSites, hname]
      rfl
    rw [hlink]
    exact .unresolved hsites hknown hname hlinked

/-- With no call remembered, linking changes nothing. -/
theorem link_of_no_site {s : Linker × Code} (h : s.1.sites = []) : link s = .ok () s := by
  obtain ⟨⟨addresses, sites⟩, code⟩ := s
  cases h
  rfl

end Linker

namespace Edit

variable {s : Linker × Code}

theorem recorded_apply (h : Code.Recorded s.1.sites s.2) (edit : Edit) :
    Code.Recorded (edit.apply s).1.sites (edit.apply s).2 := by
  obtain ⟨l, code⟩ := s
  cases edit with
  | emit i => exact h.emit i
  | label address name => exact ⟨h.ordered, h.calls⟩
  | patch address target =>
    cases hp : code.patch? address target with
    | none =>
      simp only [apply, hp]
      exact h
    | some patched =>
      simp only [apply, hp]
      exact h.patch hp
  | call name => exact h.call name
  | bind name address => exact h

theorem recorded_applyAll (h : Code.Recorded s.1.sites s.2) (edits : List Edit) :
    Code.Recorded (applyAll edits s).1.sites (applyAll edits s).2 := by
  induction edits generalizing s with
  | nil => exact h
  | cons edit edits ih => exact ih (recorded_apply h edit)

theorem size_patch (code : Code) (address target : Nat) :
    ((code.patch? address target).getD code).size = code.size := by
  cases hp : code.patch? address target with
  | none => rfl
  | some patched => exact Code.size_of_patch? hp

/-- The linker remembers exactly the calls of the history. -/
theorem sites_applyAll (edits : List Edit) (s : Linker × Code) :
    (applyAll edits s).1.sites = s.1.sites ++ callsFrom s.2.size edits := by
  induction edits generalizing s with
  | nil => exact (List.append_nil _).symm
  | cons edit edits ih =>
    obtain ⟨l, code⟩ := s
    refine (ih (edit.apply (l, code))).trans ?_
    cases edit with
    | emit i => simp only [apply, callsFrom, Code.size_emit]
    | label address name => rfl
    | patch address target => simp only [apply, callsFrom, size_patch]
    | call name =>
      simp only [apply, Linker.call, callsFrom, Code.size_emit, List.append_assoc,
        List.singleton_append]
    | bind name address => rfl

/-- The linker knows exactly the last addresses of the history. -/
theorem address_applyAll (edits : List Edit) (s : Linker × Code) (name : String) :
    (applyAll edits s).1.address? name = (lastBound edits name).or (s.1.address? name) := by
  induction edits generalizing s with
  | nil => rfl
  | cons edit edits ih =>
    obtain ⟨l, code⟩ := s
    refine (ih (edit.apply (l, code))).trans ?_
    cases edit with
    | bind bound address =>
      by_cases hname : bound = name
      · subst hname
        have hlast : lastBound (bind bound address :: edits) bound =
            some ((lastBound edits bound).getD address) := by
          simp [lastBound, binding?, List.getLast?_cons]
        have hfirst : (l.bind bound address).address? bound = some address := by
          simp [Linker.address?, Linker.bind]
        simp only [apply, hlast, hfirst]
        cases lastBound edits bound <;> rfl
      · have hlast : lastBound (bind bound address :: edits) name = lastBound edits name := by
          simp [lastBound, binding?, hname]
        have hother : (l.bind bound address).address? name = l.address? name := by
          have hne : (name == bound) = false := by simpa using Ne.symm hname
          simp only [Linker.address?, Linker.bind, List.lookup_cons, hne]
        simp only [apply, hlast, hother]
    | _ => rfl

theorem recorded_assemble (edits : List Edit) :
    Code.Recorded (assemble edits).1.sites (assemble edits).2 :=
  recorded_applyAll ⟨.nil, List.forall_mem_nil _⟩ edits

theorem sites_assemble (edits : List Edit) : (assemble edits).1.sites = calls edits :=
  sites_applyAll edits (.empty, .empty)

theorem address_assemble (edits : List Edit) :
    (assemble edits).1.address? = lastBound edits := by
  funext name
  exact (address_applyAll edits (.empty, .empty) name).trans Option.or_none

/-- Edits that call nothing leave nothing to link. -/
theorem sites_eq_nil {edits : List Edit} (hs : s.1.sites = [])
    (h : ∀ edit ∈ edits, edit.isCall = false) : (applyAll edits s).1.sites = [] := by
  have hcalls : ∀ n, callsFrom n edits = [] := by
    induction edits with
    | nil => exact fun _ => rfl
    | cons edit edits ih =>
      obtain ⟨hedit, hedits⟩ := List.forall_mem_cons.1 h
      cases edit with
      | call name => cases hedit
      | emit i => exact fun n => ih hedits (n + 1)
      | _ => exact ih hedits
  rw [sites_applyAll, hs, hcalls, List.nil_append]

/-- Linking succeeds exactly if every name that is called has been bound. Then every call leads to the
address last bound to its name; otherwise to the first name without one linking fails, with the calls
before it linked. Either way everything else is as it was, and until there is another call, linking
again changes nothing. -/
theorem link_assembled (edits : List Edit) :
    ((∃ s, Linker.link (assemble edits) = .ok () s) ↔
        ∀ call ∈ calls edits, (lastBound edits call.2).isSome) ∧
      (∀ s, Linker.link (assemble edits) = .ok () s →
        Code.Linked (lastBound edits) (calls edits) (assemble edits).2 s.2) ∧
      (∀ e s, Linker.link (assemble edits) = .error e s → ∃ before site name after,
        calls edits = before ++ (site, name) :: after ∧
          (∀ call ∈ before, (lastBound edits call.2).isSome) ∧ lastBound edits name = none ∧
          e = .unresolved name ∧ Code.Linked (lastBound edits) before (assemble edits).2 s.2) ∧
      ∀ s, (Linker.link (assemble edits) = .ok () s ∨ ∃ e, Linker.link (assemble edits) = .error e s) →
        ∀ later : List Edit, (∀ edit ∈ later, edit.isCall = false) →
          Linker.link (applyAll later s) = .ok () (applyAll later s) := by
  have hlinks : Linker.Links (assemble edits).1 (assemble edits).2 (Linker.link (assemble edits)) :=
    Linker.links_link (recorded_assemble edits)
  rw [← address_assemble, ← sites_assemble]
  generalize Linker.link (assemble edits) = r at hlinks ⊢
  cases hlinks with
  | linked hknown h =>
    refine ⟨iff_of_true ⟨_, rfl⟩ hknown, ?_, nofun, ?_⟩
    · rintro _ ⟨⟩
      exact h
    · rintro _ (⟨⟨⟩⟩ | ⟨_, ⟨⟩⟩) later hlater
      exact Linker.link_of_no_site (sites_eq_nil rfl hlater)
  | @unresolved _ before after site name hsites hknown hname h =>
    have hunknown : ¬ ∀ call ∈ (assemble edits).1.sites, ((assemble edits).1.address? call.2).isSome := by
      intro hall
      have hsome := hall (site, name) (hsites ▸ List.mem_append_right _ List.mem_cons_self)
      rw [hname] at hsome
      cases hsome
    refine ⟨iff_of_false nofun hunknown, nofun, ?_, ?_⟩
    · rintro _ _ ⟨⟩
      exact ⟨before, site, name, after, hsites, hknown, hname, rfl, h⟩
    · rintro _ (⟨⟨⟩⟩ | ⟨_, ⟨⟩⟩) later hlater
      exact Linker.link_of_no_site (sites_eq_nil rfl hlater)

def rebinding : List Edit :=
  [.call "f", .bind "f" 7, .patch 0 9, .emit (.call 3), .patch 1 4, .bind "f" 2]

/-- The named call has the last address and the other one keeps its target. If calls to a function that
is never bound and to the first one again follow, only the first call is linked. -/
theorem link_rebinding :
    (∃ s, Linker.link (assemble rebinding) = .ok () s ∧ s.2.get? 0 = some (.call 2) ∧
      s.2.get? 1 = some (.call 4) ∧
        Linker.link (applyAll [.patch 0 5] s) = .ok () (applyAll [.patch 0 5] s)) ∧
    ∃ e s, Linker.link (assemble (rebinding ++ [.call "g", .call "f"])) = .error e s ∧
      e = .unresolved "g" ∧ s.2.get? 0 = some (.call 2) ∧ s.2.get? 3 = some (.call 0) := by
  constructor
  · obtain ⟨hok, hlinked, -, hagain⟩ := link_assembled rebinding
    obtain ⟨s, hs⟩ := hok.2 (by decide +kernel)
    obtain ⟨target, htarget, hcall⟩ := (hlinked s hs).calls 0 "f" (by decide +kernel)
    cases htarget
    have hother := (hlinked s hs).others 1 (by decide +kernel)
    exact ⟨s, hs, hcall, hother, hagain s (.inl hs) _ (by decide)⟩
  · obtain ⟨hok, -, hfails, -⟩ := link_assembled (rebinding ++ [.call "g", .call "f"])
    cases hs : Linker.link (assemble (rebinding ++ [.call "g", .call "f"])) with
    | ok _ s =>
      have hbound := hok.1 ⟨s, hs⟩ (2, "g") (by decide +kernel)
      cases hbound
    | error e s =>
      obtain ⟨before, site, name, after, hcalls, hknown, hname, rfl, hlinked⟩ := hfails e s hs
      have hbefore : before = [(0, "f")] ∧ name = "g" := by
        rcases before with _ | ⟨first, _ | ⟨second, before⟩⟩
        · cases hcalls
          cases hname
        · cases hcalls
          exact ⟨rfl, rfl⟩
        · have hsecond : (2, "g") = second := (List.cons.inj (List.cons.inj hcalls).2).1
          have hbound := hknown second (by simp)
          rw [← hsecond] at hbound
          cases hbound
      obtain ⟨rfl, rfl⟩ := hbefore
      obtain ⟨target, htarget, hcall⟩ := hlinked.calls 0 "f" (by simp)
      cases htarget
      exact ⟨_, s, rfl, rfl, hcall, hlinked.others 3 (by decide)⟩

end Edit
end Sigil
