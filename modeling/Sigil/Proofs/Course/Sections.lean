import Sigil.Proofs.Course.Forms
import Sigil.Proofs.Draft.Calls
import Sigil.Proofs.Draft.Sections

/-!
Every section of a program has a course that begins and ends with an empty frame. So something is
known at each of its places, and jumps lead to places where it is known, too.
-/
namespace Sigil

open Draft (fixed)

def Part.arity : Part → Nat
  | body => 0
  | function f => f.parameters.length

def Section.Knows (s : Section) (address : Nat) (P : Point) : Prop :=
  ∃ x d y, s.draft = x ++ d :: y ∧ address = s.start + x.length ∧ Point.bottom.behind x = P

variable {p : Program} {code : Code} {entry : String → Nat} {sections : List Section} {s : Section}
  {P : Point} {x y : List Draft} {d : Draft}

theorem Section.knows_start (hx : s.draft ≠ []) : s.Knows s.start .bottom := by
  obtain ⟨d, y, hd⟩ := List.exists_cons_of_ne_nil hx
  exact ⟨[], d, y, hd, rfl, rfl⟩

/-- An address where something is known lies in the section. -/
theorem Section.Knows.has {address : Nat} (h : s.Knows address P) : s.Has address := by
  obtain ⟨x, d, y, hdraft, rfl, -⟩ := h
  constructor
  · exact Nat.le_add_right _ _
  · rw [hdraft, List.length_append, List.length_cons]
    omega

namespace Program

def limits (p : Program) (x : Part) : Limits := ⟨x.arity, (p.tree x).need, p.arity?⟩

/-- Where a part starts, no cell of its frame is named. -/
theorem suits_grounded (p : Program) (x : Part) (cell start : Nat) :
    Layout.Suits (p.limits x) 0 (Layout.grounded { p.layout with cell, start }) where
  offset := rfl
  slots := by
    intro y t ht
    cases ht
  arities := rfl

theorem course_part {x : Part} {cell start : Nat} {code : List Draft}
    (h : p.partBlock x { p.layout with cell, start } = some code) :
    ∃ b, code = b ++ [fixed x.last] ∧ Course (p.limits x) start .bottom b .bottom := by
  cases x with
  | body =>
    obtain ⟨b, hb, rfl⟩ := Option.map_eq_some_iff.1 h
    exact ⟨b, rfl, p.body.needs_block _ _ 0 b hb (p.suits_grounded .body cell start)
      (Nat.le_of_eq (Nat.zero_add _))⟩
  | function f =>
    obtain ⟨-, b, hb, rfl⟩ := Function.block_eq_some.1 h
    have hparameters := (p.suits_grounded (.function f) cell start).bind f.parameters
      fun t ht => mem_parameterSlots ht
    exact ⟨b, rfl, f.body.needs_block _ _ 0 b hb hparameters (Nat.le_of_eq (Nat.zero_add _))⟩

end Program

inductive Section.Spot (p : Program) (s : Section) (x : List Draft) : Draft → Prop
  | last (hx : Point.bottom.behind x = .bottom) : Spot p s x (fixed s.part.last)
  | inner {d : Draft} (hd : (Point.bottom.behind x).Fits (p.limits s.part) d)
      (hjump : ∀ target, d.jump? = some target → s.Knows target (Point.bottom.behind x))
      (hnext : s.Knows (s.start + x.length + 1) ((Point.bottom.behind x).after d)) : Spot p s x d

namespace Program.Sectioned

/-- The code in front of the last instruction keeps to the limits. -/
theorem keeps (h : p.Sectioned code entry sections) (hs : s ∈ sections) :
    ∃ b, s.draft = b ++ [fixed s.part.last] ∧ Keeps (p.limits s.part) s.Knows .bottom b ∧
      Point.bottom.behind b = .bottom := by
  obtain ⟨cell, hblock⟩ := h.block s hs
  obtain ⟨b, hb, hcourse⟩ := course_part hblock
  refine ⟨b, hb, hcourse.keeps _ ?_, hcourse.behind⟩
  rintro x ⟨y, rfl⟩
  obtain ⟨d, z, hd⟩ := List.exists_cons_of_ne_nil
    (List.append_ne_nil_of_right_ne_nil y (List.cons_ne_nil (fixed s.part.last) []))
  exact ⟨x, d, z, by rw [hb, List.append_assoc, hd], rfl, rfl⟩

theorem draft_ne_nil (h : p.Sectioned code entry sections) (hs : s ∈ sections) : s.draft ≠ [] := by
  obtain ⟨b, hb, -⟩ := h.keeps hs
  rw [hb]
  exact List.append_ne_nil_of_right_ne_nil b (List.cons_ne_nil _ _)

theorem spot (h : p.Sectioned code entry sections) (hs : s ∈ sections)
    (hx : s.draft = x ++ d :: y) : s.Spot p x d := by
  obtain ⟨b, hb, hkeeps, hbehind⟩ := h.keeps hs
  rcases List.eq_nil_or_concat' y with rfl | ⟨z, e, rfl⟩
  · rw [hb] at hx
    obtain ⟨rfl, hd⟩ := List.append_inj' hx rfl
    obtain rfl := List.singleton_inj.1 hd
    exact .last hbehind
  · have hsplit : b ++ [fixed s.part.last] = (x ++ d :: z) ++ [e] := by
      rw [← hb, hx, List.append_assoc, List.cons_append]
    obtain ⟨rfl, -⟩ := List.append_inj' hsplit rfl
    obtain ⟨hd, hjump⟩ := hkeeps.fits
    obtain ⟨d', z', hz⟩ := List.exists_cons_of_ne_nil
      (List.append_ne_nil_of_right_ne_nil z (List.cons_ne_nil e []))
    exact .inner hd hjump ⟨x ++ [d], d', z', by simp [hx, hz], by simp [Nat.add_assoc], by simp⟩

/-- Nowhere in a section is the frame higher than its tree needs. -/
theorem height_le {address : Nat} (h : p.Sectioned code entry sections) (hs : s ∈ sections)
    (hP : s.Knows address P) : P.height ≤ (p.tree s.part).need := by
  obtain ⟨x, d, y, hx, -, rfl⟩ := hP
  obtain ⟨b, hb, hkeeps, -⟩ := h.keeps hs
  have hlength : x.length ≤ b.length := by
    have hlength := congrArg List.length (hx.symm.trans hb)
    simp only [List.length_append, List.length_cons, List.length_nil] at hlength
    omega
  obtain ⟨z, rfl⟩ := List.prefix_of_prefix_length_le ⟨d :: y, hx.symm⟩ ⟨_, hb.symm⟩ hlength
  exact (keeps_append.1 hkeeps).1.height_le (Nat.zero_le _)

/-- The calls of a section are those of its tree. -/
theorem callees_eq (h : p.Sectioned code entry sections) (hs : s ∈ sections) :
    Draft.callees s.draft = (p.tree s.part).callees := by
  obtain ⟨cell, hblock⟩ := h.block s hs
  cases hpart : s.part with
  | body =>
    rw [hpart] at hblock
    obtain ⟨b, hb, hdraft⟩ := Option.map_eq_some_iff.1 hblock
    rw [← hdraft, Draft.callees_append, p.body.calls_block _ _ hb]
    exact List.append_nil _
  | function f =>
    rw [hpart] at hblock
    exact f.calls_block _ _ hblock

end Program.Sectioned
end Sigil
