import Mathlib.Data.List.Forall2
import Sigil.Proofs.Evaluation
import Sigil.Proofs.Lookup
import Sigil.Proofs.Machine.Moves

/-!
Variables on the stack. The slots of the variables in scope hold the values of the environment, and
what lies on the stack beside them is left alone.
-/
namespace Sigil

namespace Stack

variable {s : Stack} {t : Int} {v w : Value} {i n : Nat}

theorem get?_eq_some : s.get? t = some v ↔ ∃ i : Nat, (i : Int) = s.base + t ∧ s.cells[i]? = some v := by
  simp only [get?, Option.bind_eq_some_iff, index?_eq_some]
  constructor
  · rintro ⟨i, ⟨hi, -⟩, hv⟩
    exact ⟨i, hi, hv⟩
  · rintro ⟨i, hi, hv⟩
    exact ⟨i, ⟨hi, (Array.getElem?_eq_some_iff.1 hv).1⟩, hv⟩

theorem index?_of_get? (h : s.get? t = some v) : ∃ i, s.index? t = some i :=
  let ⟨i, hi, _⟩ := Option.bind_eq_some_iff.1 h
  ⟨i, hi⟩

theorem get?_push_of_get? (h : s.get? t = some v) (w : Value) : (s.push w).get? t = some v := by
  obtain ⟨i, hi, hv⟩ := get?_eq_some.1 h
  refine get?_eq_some.2 ⟨i, hi, ?_⟩
  have := (Array.getElem?_eq_some_iff.1 hv).1
  simp only [push]
  rw [Array.getElem?_push, if_neg (by omega)]
  exact hv

theorem get?_push_top (h : (s.height : Int) = s.base + t) (v : Value) :
    (s.push v).get? t = some v :=
  get?_eq_some.2 ⟨s.height, h, by simp [push, height]⟩

theorem get?_set_same (h : s.index? t = some i) (v : Value) : (s.set i v).get? t = some v := by
  obtain ⟨hi, hlt⟩ := index?_eq_some.1 h
  refine get?_eq_some.2 ⟨i, hi, ?_⟩
  simp only [set, height] at hlt ⊢
  rw [Array.getElem?_setIfInBounds_self_of_lt hlt]

theorem get?_set_other {x : Int} (h : s.index? t = some i) (hx : x ≠ t) (v : Value) :
    (s.set i v).get? x = s.get? x := by
  have hi := (index?_eq_some.1 h).1
  refine Option.ext fun w => ?_
  rw [get?_eq_some, get?_eq_some]
  refine exists_congr fun j => and_congr_right fun hj => ?_
  have hne : i ≠ j := by
    rintro rfl
    exact hx (by simp only [set] at hj; omega)
  simp only [set]
  rw [Array.getElem?_setIfInBounds_ne hne]

theorem get?_drop_of_get? (h : s.get? t = some v) (ht : s.base + t < (s.height : Int) - n) :
    (s.drop n).get? t = some v := by
  obtain ⟨i, hi, hv⟩ := get?_eq_some.1 h
  refine get?_eq_some.2 ⟨i, hi, ?_⟩
  simp only [drop, height] at ht ⊢
  rw [getElem?_shrink _ (by omega)]
  exact hv

end Stack

def Stored (s : Stack) (Γ : List (String × Int)) (ρ : Env) : Prop :=
  List.Forall₂ (fun b e => b.1 = e.1 ∧ s.get? b.2 = some e.2) Γ ρ

variable {s s' : Stack} {Γ : List (String × Int)} {ρ : Env} {x : String} {t : Int} {v : Value}

theorem Stored.congr (h : Stored s Γ ρ)
    (hs : ∀ b ∈ Γ, ∀ v, s.get? b.2 = some v → s'.get? b.2 = some v) : Stored s' Γ ρ := by
  induction h with
  | nil => exact .nil
  | @cons b e Γ ρ hb _ ih =>
    refine .cons ⟨hb.1, hs b List.mem_cons_self _ hb.2⟩ (ih fun c hc => hs c (List.mem_cons_of_mem _ hc))

theorem Stored.lookup (h : Stored s Γ ρ) (hx : Γ.lookup x = some t) :
    ∃ v, ρ.lookup x = some v ∧ s.get? t = some v := by
  induction h with
  | nil => cases hx
  | @cons b e Γ ρ hb _ ih =>
    rw [List.lookup_cons] at hx ⊢
    rw [← hb.1]
    cases hxb : x == b.1 with
    | true =>
      simp only [hxb, Option.some.injEq] at hx ⊢
      exact ⟨e.2, rfl, hx ▸ hb.2⟩
    | false =>
      simp only [hxb] at hx ⊢
      exact ih hx

/-- Writing to the slot of a variable updates the variable, and no other. -/
theorem Stored.update (h : Stored s Γ ρ) (hn : (Γ.map Prod.snd).Nodup) (hx : Γ.lookup x = some t)
    (hv : s'.get? t = some v) (ho : ∀ y w, y ≠ t → s.get? y = some w → s'.get? y = some w) :
    Stored s' Γ (ρ.update x v) := by
  induction h with
  | nil => cases hx
  | @cons b e Γ ρ hb hΓ ih =>
    rw [List.map_cons, List.nodup_cons] at hn
    rw [List.lookup_cons] at hx
    unfold Env.update
    by_cases hxe : x = e.1
    · have hxb : (x == b.1) = true := by simp [hxe, hb.1]
      simp only [hxb, Option.some.injEq] at hx
      rw [if_pos hxe]
      refine .cons ⟨hb.1, hx ▸ hv⟩ (Stored.congr hΓ fun c hc w hw => ho c.2 w ?_ hw)
      intro hct
      exact hn.1 (hx.trans hct.symm ▸ List.mem_map_of_mem hc)
    · have hxb : (x == b.1) = false := by simp [hb.1, hxe]
      simp only [hxb] at hx
      rw [if_neg hxe]
      refine .cons ⟨hb.1, ho b.2 _ ?_ hb.2⟩ (ih hn.2 hx)
      intro hbt
      exact hn.1 (hbt ▸ List.mem_map.2 ⟨_, mem_of_lookup hx, rfl⟩)

namespace Machine

structure Frame (S : List Int) (m m' : Machine) : Prop where
  base : m'.stack.base = m.stack.base
  saved : m'.stack.saved = m.stack.saved
  returns : m'.returns = m.returns
  height : m.stack.height ≤ m'.stack.height
  cells : ∀ i, i < m.stack.height → (∀ t ∈ S, (i : Int) ≠ m.stack.base + t) →
    m'.stack.cells[i]? = m.stack.cells[i]?

variable {S T : List Int} {m u m' : Machine} {i n pc : Nat} {offset : Int}

theorem Frame.refl (S : List Int) (m : Machine) : Frame S m m :=
  ⟨rfl, rfl, rfl, Nat.le_refl _, fun _ _ _ => rfl⟩

/-- Slots above the stack count only later on. -/
theorem Frame.trans (h : Frame S m u) (g : Frame T u m')
    (hT : ∀ t ∈ T, t ∈ S ∨ (m.stack.height : Int) ≤ m.stack.base + t) : Frame S m m' where
  base := g.base.trans h.base
  saved := g.saved.trans h.saved
  returns := g.returns.trans h.returns
  height := Nat.le_trans h.height g.height
  cells := by
    intro i hi hS
    have hu : ∀ t ∈ T, (i : Int) ≠ u.stack.base + t := by
      intro t ht
      rw [h.base]
      rcases hT t ht with ht | ht
      · exact hS t ht
      · omega
    rw [g.cells i (Nat.lt_of_lt_of_le hi h.height) hu, h.cells i hi hS]

theorem Frame.trans_same (h : Frame S m u) (g : Frame S u m') : Frame S m m' :=
  h.trans g fun _ ht => .inl ht

theorem Frame.mono (h : Frame S m m') (hS : S ⊆ T) : Frame T m m' :=
  { h with cells := fun i hi hT => h.cells i hi fun t ht => hT t (hS ht) }

theorem Frame.congr (h : Frame S m u) (hs : m'.stack = u.stack) (hr : m'.returns = u.returns) :
    Frame S m m' where
  base := by rw [hs, h.base]
  saved := by rw [hs, h.saved]
  returns := by rw [hr, h.returns]
  height := by
    rw [hs]
    exact h.height
  cells := by
    rw [hs]
    exact h.cells

theorem Frame.get? (h : Frame S m m') (hv : m.stack.get? t = some v) (ht : t ∉ S) :
    m'.stack.get? t = some v := by
  obtain ⟨i, hi, hv⟩ := Stack.get?_eq_some.1 hv
  refine Stack.get?_eq_some.2 ⟨i, by rw [h.base, hi], ?_⟩
  rw [h.cells i (Array.getElem?_eq_some_iff.1 hv).1 ?_, hv]
  intro y hy hiy
  have : y = t := by omega
  exact ht (this ▸ hy)

theorem frame_accumulated (S : List Int) (m : Machine) (v : Value) : Frame S m (m.accumulated v) :=
  ⟨rfl, rfl, rfl, Nat.le_refl _, fun _ _ _ => rfl⟩

theorem frame_jumped (S : List Int) (m : Machine) (pc : Nat) : Frame S m (m.jumped pc) :=
  ⟨rfl, rfl, rfl, Nat.le_refl _, fun _ _ _ => rfl⟩

theorem frame_pushed (S : List Int) (m : Machine) (v : Value) : Frame S m (m.pushed v) where
  base := rfl
  saved := rfl
  returns := rfl
  height := by simp [pushed]
  cells := by
    intro i hi _
    simp only [Stack.height] at hi
    simp only [pushed, Stack.push]
    rw [Array.getElem?_push, if_neg (by omega)]

theorem frame_written (hi : m.stack.index? t = some i) (ht : t ∈ S) (v : Value) :
    Frame S m (m.written i v) where
  base := rfl
  saved := rfl
  returns := rfl
  height := by simp [written]
  cells := by
    intro j _ hS
    have := (Stack.index?_eq_some.1 hi).1
    have := hS t ht
    simp only [written, Stack.set]
    rw [Array.getElem?_setIfInBounds_ne (by omega)]

theorem Frame.written (h : Frame S m m') (hi : m'.stack.index? t = some i)
    (ht : t ∈ S ∨ (m.stack.height : Int) ≤ m.stack.base + t) (v : Value) :
    Frame S m (m'.written i v) := by
  refine h.trans (frame_written hi (List.mem_singleton_self t) v) fun y hy => ?_
  rw [List.mem_singleton.1 hy]
  exact ht

theorem Frame.accumulated (h : Frame S m m') (v : Value) : Frame S m (m'.accumulated v) :=
  h.trans_same (frame_accumulated S m' v)

theorem Frame.jumped (h : Frame S m m') (pc : Nat) : Frame S m (m'.jumped pc) :=
  h.trans_same (frame_jumped S m' pc)

theorem Frame.pushed (h : Frame S m m') (v : Value) : Frame S m (m'.pushed v) :=
  h.trans_same (frame_pushed S m' v)

theorem Frame.dropped (h : Frame S m m') (hn : m.stack.height + n ≤ m'.stack.height) :
    Frame S m (m'.dropped n) where
  base := h.base
  saved := h.saved
  returns := h.returns
  height := by
    simp only [Machine.dropped, Stack.height_drop]
    omega
  cells := by
    intro i hi hS
    simp only [Stack.height] at hi hn
    rw [← h.cells i hi hS]
    simp only [Machine.dropped, Stack.drop]
    exact Stack.getElem?_shrink _ (by omega)

end Machine
end Sigil
