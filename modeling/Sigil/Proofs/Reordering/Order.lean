import Mathlib.Data.List.Pairwise
import Sigil.Proofs.Draft.Parts
import Sigil.Proofs.Reordering.Matching
import Sigil.Proofs.Scoping.Compilation
import Sigil.Proofs.Safety

/-!
The order in which functions are declared does not matter: the same programs are compiled, and their
codes run alike.
-/
namespace Sigil

open Draft (fixed)
open Machine

namespace Program

variable {p q : Program} {a b : Code} {entry entry' cells cells' : String → Nat} {x y : Part}

def Apart (p : Program) (cells : String → Nat) (x y : Part) : Prop :=
  x.base cells + (p.partDraft x).countP Draft.isNew ≤ y.base cells ∨
    y.base cells + (p.partDraft y).countP Draft.isNew ≤ x.base cells

theorem Spread.apart_of_ne (h : p.Spread a entry cells) (hx : x ∈ p.parts) (hy : y ∈ p.parts)
    (hne : x ≠ y) : p.Apart cells x y := by
  have hsymm : Std.Symm (p.Apart cells) := ⟨fun _ _ => Or.symm⟩
  have hapart : p.parts.Pairwise (p.Apart cells) := h.apart.imp Or.inl
  exact hapart.forall hx hy hne

/-- A cell belongs to one part only. -/
theorem Spread.cell_unique (h : p.Spread a entry cells) {i j : Nat} (hx : x ∈ p.parts)
    (hy : y ∈ p.parts) (hi : i < (p.partDraft x).countP Draft.isNew)
    (hj : j < (p.partDraft y).countP Draft.isNew) (he : x.base cells + i = y.base cells + j) :
    x = y ∧ i = j := by
  obtain rfl : x = y := by
    by_contra hne
    rcases h.apart_of_ne hx hy hne with hle | hle <;> omega
  exact ⟨rfl, Nat.add_left_cancel he⟩

structure Reordered (p q : Program) (a b : Code) (entry entry' cells cells' : String → Nat) :
    Prop where
  first : p.Spread a entry cells
  second : q.Spread b entry' cells'
  parts : ∀ x, x ∈ q.parts ↔ x ∈ p.parts
  drafts : q.partDraft = p.partDraft

def Reordered.matching (h : Reordered p q a b entry entry' cells cells') : Matching where
  place s t := ∃ x ∈ p.parts, ∃ i < (p.partDraft x).length,
    s = x.base entry + i ∧ t = x.base entry' + i
  cell s t := ∃ x ∈ p.parts, ∃ i < (p.partDraft x).countP Draft.isNew,
    s = x.base cells + i ∧ t = x.base cells' + i
  one_to_one := by
    rintro _ _ _ _ ⟨x, hx, i, hi, rfl, rfl⟩ ⟨y, hy, j, hj, rfl, rfl⟩
    constructor
    · intro he
      obtain ⟨rfl, rfl⟩ := h.first.cell_unique hx hy hi hj he
      rfl
    · intro he
      rw [← h.drafts] at hi hj
      obtain ⟨rfl, rfl⟩ := h.second.cell_unique ((h.parts x).2 hx) ((h.parts y).2 hy) hi hj he
      rfl

/-- Where a function starts in the one code belongs together with where it starts in the other. -/
theorem Reordered.place_entry (h : Reordered p q a b entry entry' cells cells') {name : String}
    (hname : (p.layout.arity? name).isSome) : h.matching.place (entry name) (entry' name) := by
  obtain ⟨f, hf, rfl⟩ := List.mem_map.1 (mem_names_of_arity hname)
  obtain ⟨c, hc, -⟩ := bounded_part (h.first.draft _ (mem_parts hf))
  refine ⟨.function f, mem_parts hf, 0, ?_, rfl, rfl⟩
  simp [hc]

theorem Reordered.place_start (h : Reordered p q a b entry entry' cells cells') :
    h.matching.place 0 0 := by
  have hbody : Part.body ∈ p.parts := List.mem_cons_self
  obtain ⟨c, hc, -⟩ := bounded_part (h.first.draft _ hbody)
  refine ⟨.body, hbody, 0, ?_, rfl, rfl⟩
  simp [hc]

/-- What stands in a part before its end is the same in both codes, but for the addresses. -/
theorem Reordered.instructions (h : Reordered p q a b entry entry' cells cells') {c : List Draft}
    {d : Draft} (hx : x ∈ p.parts) (hc : p.partDraft x = c ++ [fixed x.last])
    (hregion : (p.layout.region c).Has c) (hd : d ∈ c) :
    h.matching.Instructions ((d.shift (x.base entry) (x.base cells)).link entry)
      ((d.shift (x.base entry') (x.base cells')).link entry') := by
  cases d with
  | fixed i =>
    refine Matching.instructions_relocate (hregion _ hd) (fun target ht => ?_) fun cell hcell => ?_
    · -- jumps lead to the last instruction at most
      have hlast : target ≤ 0 + c.length := ht.2
      refine ⟨x, hx, target, ?_, rfl, rfl⟩
      rw [hc, List.length_append, List.length_singleton]
      omega
    · have htop : cell < 0 + c.countP Draft.isNew := hcell.2
      refine ⟨x, hx, cell, ?_, rfl, rfl⟩
      rw [hc, List.countP_append]
      omega
  | call name =>
    have hcall : Draft.call name ∈ p.partDraft x := hc ▸ List.mem_append_left _ hd
    exact .call (h.place_entry (declared_part (h.first.draft x hx) name hcall))

theorem Reordered.codes (h : Reordered p q a b entry entry' cells cells') : h.matching.Codes a b := by
  rintro _ _ ⟨x, hx, i, hi, rfl, rfl⟩
  obtain ⟨d, hd⟩ : ∃ d, (p.partDraft x)[i]? = some d := ⟨_, List.getElem?_eq_getElem hi⟩
  have hmoved : ∀ start cell, ((p.partDraft x).map (Draft.shift start cell))[i]? =
      some (d.shift start cell) := by
    intro start cell
    rw [List.getElem?_map, hd, Option.map_some]
  have hget := h.first.holds x hx i _ (hmoved _ _)
  have hget' := h.second.holds x ((h.parts x).2 hx) i _ (by rw [h.drafts]; exact hmoved _ _)
  refine ⟨_, _, hget, hget', ?_⟩
  obtain ⟨c, hc, hregion⟩ := bounded_part (h.first.draft x hx)
  have hlength : (p.partDraft x).length = c.length + 1 := by rw [hc, List.length_append]; rfl
  rcases Nat.lt_succ_iff_lt_or_eq.1 (hlength ▸ hi) with hlt | rfl
  · rw [hc, List.getElem?_append_left hlt] at hd
    exact ⟨h.instructions hx hc hregion (List.mem_of_getElem? hd),
      fun _ => ⟨x, hx, i + 1, by omega, rfl, rfl⟩⟩
  · -- nothing follows the last instruction
    rw [hc, List.getElem?_concat_length, Option.some.injEq] at hd
    subst hd
    cases x with
    | body => exact ⟨.exit (.register 0), nofun⟩
    | function f => exact ⟨.result (.register 0), nofun⟩

/-- A run of compiled code stops with a fault only if a limit is met or types do not match. -/
theorem fault_of_stops {config : Config} {n : Nat} {m : Machine} {f : Fault}
    (hp : p.compile = .ok a) (h : Stops a config n (.error f) m) :
    Limiting f ∨ ∃ cause, f = .typeMismatch cause := by
  obtain ⟨k, u, -, hsteps, hr, hstep⟩ := stops_iff.1 h
  obtain ⟨entry, hplaced⟩ := placed_of_compile hp
  by_cases hf : Limiting f
  · exact .inl hf
  · obtain ⟨cause, hcause, -⟩ := checked_of_fault hplaced hsteps ⟨hr, m, hstep⟩ hf
    exact .inr ⟨cause, hcause⟩

theorem eq_of_outcomes {M : Matching} {config : Config} {n : Nat} {m : Machine}
    {o o' : Except Fault Value} (hp : p.compile = .ok a) (h : Stops a config n o m)
    (ho : M.Outcomes o o') : o' = o := by
  cases ho with
  | ok v => rfl
  | error hf =>
    cases hf with
    | same f => rfl
    | _ =>
      -- faults on heap cells do not occur
      rcases fault_of_stops hp h with hl | ⟨_, he⟩
      · cases hl
      · cases he

theorem layout_of_perm (hperm : p.functions.Perm q.functions)
    (hn : (p.functions.map Function.name).Nodup) : q.layout = p.layout := by
  have hn' : (q.functions.map Function.name).Nodup := (hperm.map Function.name).nodup_iff.1 hn
  have harity : q.arity? = p.arity? := by
    funext name
    ext n
    rw [arity?_eq_some hn, arity?_eq_some hn']
    simp only [hperm.mem_iff]
  rw [layout, layout, harity]

theorem partBlock_of_body (hbody : q.body = p.body) : q.partBlock = p.partBlock := by
  funext x
  cases x with
  | body => rw [partBlock, partBlock, hbody]
  | function f => rfl

theorem mem_parts_of_perm (hperm : p.functions.Perm q.functions) (x : Part) :
    x ∈ q.parts ↔ x ∈ p.parts :=
  ((hperm.map Part.function).cons .body).mem_iff.symm

/-- In another order of the functions the same parts have drafts. -/
theorem compiles_of_perm (hbody : q.body = p.body) (hperm : p.functions.Perm q.functions)
    (h : ∃ c, p.compile = .ok c) : ∃ c, q.compile = .ok c := by
  rw [compiles_iff_draft, draft_iff] at h ⊢
  obtain ⟨hn, hdrafts⟩ := h
  refine ⟨(hperm.map Function.name).nodup_iff.1 hn, fun x hx => ?_⟩
  rw [layout_of_perm hperm hn, partBlock_of_body hbody]
  exact hdrafts x ((mem_parts_of_perm hperm x).1 hx)

theorem reordered_of_perm (hbody : q.body = p.body) (hperm : p.functions.Perm q.functions)
    (hp : p.compile = .ok a) (hq : q.compile = .ok b) :
    ∃ entry entry' cells cells', Reordered p q a b entry entry' cells cells' := by
  obtain ⟨entry, cells, hfirst⟩ := spread_of_compile hp
  obtain ⟨entry', cells', hsecond⟩ := spread_of_compile hq
  have hn : (p.functions.map Function.name).Nodup := (compiles_iff_draft.1 ⟨a, hp⟩).1
  have hdrafts : q.partDraft = p.partDraft := by
    funext x
    rw [partDraft, partDraft, partBlock_of_body hbody, layout_of_perm hperm hn]
  exact ⟨entry, entry', cells, cells', hfirst, hsecond, mem_parts_of_perm hperm, hdrafts⟩

theorem stops_of_perm (hbody : q.body = p.body) (hperm : p.functions.Perm q.functions)
    (hp : p.compile = .ok a) (hq : q.compile = .ok b) {config : Config} {n : Nat}
    {o : Except Fault Value} (h : ∃ m, Stops a config n o m) : ∃ m, Stops b config n o m := by
  obtain ⟨m, h⟩ := h
  obtain ⟨entry, entry', cells, cells', hr⟩ := reordered_of_perm hbody hperm hp hq
  obtain ⟨o', m', h', ho⟩ := Matching.stops_of_stops hr.codes hr.place_start h
  rw [eq_of_outcomes hp h ho] at h'
  exact ⟨m', h'⟩

/-- The order of the functions does not matter. In any order the program is compiled if it is in one,
and then the codes run alike: under any configuration both stop with the same step, and with the same
value or the same fault, or neither of them stops. -/
theorem order_immaterial (hbody : q.body = p.body) (hperm : p.functions.Perm q.functions) :
    ((∃ c, p.compile = .ok c) ↔ ∃ c, q.compile = .ok c) ∧
      ∀ a b, p.compile = .ok a → q.compile = .ok b → ∀ config n o,
        (∃ m, Stops a config n o m) ↔ ∃ m, Stops b config n o m := by
  refine ⟨⟨compiles_of_perm hbody hperm, compiles_of_perm hbody.symm hperm.symm⟩, ?_⟩
  intro a b hp hq config n o
  exact ⟨stops_of_perm hbody hperm hp hq, stops_of_perm hbody.symm hperm.symm hq hp⟩

def copying : Function := ⟨"copying", ["x"], .concat [.variable "x"]⟩

def calling : Function := ⟨"calling", [], .call "copying" [.literal (.string "a")]⟩

def copied (functions : List Function) : Program := ⟨functions, .call "calling" []⟩

theorem copying_in_any_order : ∃ a b, (copied [copying, calling]).compile = .ok a ∧
    (copied [calling, copying]).compile = .ok b ∧
      (∃ m, Stops a ⟨8, none⟩ 17 (.ok (.string "a")) m) ∧
        ∃ m, Stops b ⟨8, none⟩ 17 (.ok (.string "a")) m := by
  have hperm : [copying, calling].Perm [calling, copying] := .swap _ _ _
  obtain ⟨a, ha, h⟩ : ∃ a, (copied [copying, calling]).compile = .ok a ∧
      ∃ m, Stops a ⟨8, none⟩ 17 (.ok (.string "a")) m :=
    ⟨_, rfl, _, stops_iff.2 ⟨16, _, rfl, (steps_of_run_none rfl).1, rfl, rfl, rfl⟩⟩
  have himmaterial := order_immaterial (p := copied [copying, calling])
    (q := copied [calling, copying]) rfl hperm
  obtain ⟨b, hb⟩ := himmaterial.1.1 ⟨a, ha⟩
  exact ⟨a, b, ha, hb, h, (himmaterial.2 a b ha hb _ _ _).1 h⟩

end Program
end Sigil
