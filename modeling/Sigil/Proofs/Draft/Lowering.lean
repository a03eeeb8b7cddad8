import Mathlib.Data.List.Forall2
import Sigil.Proofs.Draft.Growth

/-!
Lowering writes the draft of a tree: each form does so if its parts do.
-/
namespace Sigil.Lowering

open Operand (accumulator)
open Draft (fixed)

variable {s t u : Lowering} {n m : Int} {a b : List Draft}

def Lowers (part : Lower Unit) (block : Block) : Prop :=
  ∀ s t, s.Keyed → part s = .ok () t → ∃ code, block s.layout = some code ∧ Grows s 0 code t

theorem emit_eq_ok {i : Instruction} (h : emit i s = .ok () t) (hi : (fixed i).isNew = false) :
    Grows s 0 [fixed i] t := by
  cases h
  exact .one rfl rfl (List.append_nil _).symm rfl rfl (Int.add_zero _).symm (by simp [hi])

theorem push_eq_ok {source : Operand} {slot : Int} (h : push source s = .ok slot t) :
    slot = s.offset ∧ Grows s 1 [fixed (.push source)] t := by
  cases h
  exact ⟨rfl, .one rfl rfl (List.append_nil _).symm rfl rfl rfl rfl⟩

theorem pushAccumulator_eq_ok {slot : Int} (h : push accumulator s = .ok slot t) :
    slot = s.offset ∧ Grows s 1 [Draft.push] t := push_eq_ok h

theorem load_eq_ok {slot : Int} (h : load slot s = .ok () t) : Grows s 0 [Draft.load slot] t :=
  emit_eq_ok h rfl

theorem store_eq_ok {slot : Int} (h : store slot s = .ok () t) : Grows s 0 [Draft.store slot] t :=
  emit_eq_ok h rfl

theorem drop_eq_ok {k : Nat} (h : drop k s = .ok () t) : Grows s (-k) (Draft.drop k) t := by
  by_cases hk : k = 0
  · subst hk
    cases h
    simpa [Draft.drop] using Grows.refl s
  · simp only [drop, hk, ne_eq, not_false_eq_true, if_true] at h
    cases h
    simp only [Draft.drop, hk, if_false]
    exact .one rfl rfl (List.append_nil _).symm rfl rfl Int.sub_eq_add_neg rfl

theorem call_eq_ok {name : String} (h : call name s = .ok () t) : Grows s 0 [.call name] t := by
  cases h
  exact .one rfl rfl rfl rfl rfl (Int.add_zero _).symm rfl

theorem here_eq_ok {k : Nat} (h : here s = .ok k t) : t = s ∧ k = s.code.size := by
  cases h
  exact ⟨rfl, rfl⟩

theorem slot_eq_ok {x : String} {k : Int} (h : slot x s = .ok k t) : t = s ∧ s.slot? x = some k := by
  obtain ⟨_, _, hg, h⟩ := bind_eq_ok.1 h
  cases hg
  cases hx : s.slot? x with
  | none =>
    simp only [hx] at h
    cases h
  | some k' =>
    simp only [hx] at h
    cases h
    exact ⟨rfl, rfl⟩

theorem set_append_length {α : Type} (xs ys : List α) (x y : α) :
    (xs ++ x :: ys).set xs.length y = xs ++ y :: ys := by
  simp

/-- A patch replaces a jump of the draft by the same jump to the next address. -/
theorem patchHere_eq_ok {address : Nat} {i j : Instruction} (g : Grows s n (a ++ fixed i :: b) t)
    (ha : address = s.code.size + a.length) (hi : i.retarget? t.code.size = some j)
    (h : patchHere address t = .ok () u) : Grows s n (a ++ fixed j :: b) u := by
  have hlen : (s.code.instructions.toList ++ a.map Draft.unlinked).length = address := by
    simp [ha, Code.size]
  have hcode : t.code.instructions.toList =
      (s.code.instructions.toList ++ a.map Draft.unlinked) ++ i :: b.map Draft.unlinked := by
    simp [g.instructions, Draft.unlinked, Draft.link]
  have hget : t.code.get? address = some i := by
    simp only [Code.get?, ← Array.getElem?_toList, hcode, ← hlen]
    simp
  have hpatch := Code.patch?_eq_some.2 ⟨i, j, hget, hi, rfl⟩
  have hu : u = { t with
      code := { t.code with instructions := t.code.instructions.setIfInBounds address j } } := by
    cases h
    show ({ t with code := (t.code.patch? address t.code.size).getD t.code } : Lowering) = _
    rw [hpatch]
    rfl
  have hnew : (fixed i).isNew = false ∧ (fixed j).isNew = false := by
    cases i <;> simp_all [Instruction.retarget?, Draft.isNew]
    all_goals subst hi; rfl
  subst hu
  exact { g with
    instructions := by
      simp only [Array.toList_setIfInBounds, hcode, ← hlen, set_append_length]
      simp [Draft.unlinked, Draft.link]
    sites := by
      rw [Draft.sites_append]
      simpa [Draft.sites_append, Draft.sites] using g.sites
    nextHeap := by
      simpa [List.countP_append, List.countP_cons, hnew] using g.nextHeap }

theorem lowers_constant (v : Value) : Lowers (constant v) (Block.literal v) :=
  fun _ _ _ h => ⟨_, rfl, emit_eq_ok h rfl⟩

theorem lowers_loadVariable (x : String) : Lowers (loadVariable x) (Block.lookup x) := by
  intro s t _ h
  simp only [loadVariable, bind_eq_ok] at h
  obtain ⟨k, s1, hk, h1⟩ := h
  obtain ⟨rfl, hx⟩ := slot_eq_ok hk
  refine ⟨[Draft.load k], ?_, load_eq_ok h1⟩
  simp [Block.lookup, hx]

theorem lowers_assign {value : Lower Unit} {block : Block} (x : String) (hv : Lowers value block) :
    Lowers (assign x value) (Block.assign x block) := by
  intro s t hs h
  simp only [assign, bind_eq_ok] at h
  obtain ⟨k, s1, hk, _, s2, h1, h2⟩ := h
  obtain ⟨rfl, hx⟩ := slot_eq_ok hk
  obtain ⟨code, hcode, g⟩ := hv _ _ hs h1
  refine ⟨code ++ [Draft.store k], ?_, g.trans (store_eq_ok h2)⟩
  simp [Block.assign, hx, hcode]

theorem lowers_not {operand : Lower Unit} {block : Block} (ho : Lowers operand block) :
    Lowers (Lowering.not operand) (Block.not block) := by
  intro s t hs h
  simp only [Lowering.not, bind_eq_ok] at h
  obtain ⟨_, s1, h1, h2⟩ := h
  obtain ⟨code, hcode, g⟩ := ho _ _ hs h1
  refine ⟨code ++ [fixed (.not accumulator)], ?_, g.trans (emit_eq_ok h2 rfl)⟩
  simp [Block.not, hcode]

theorem pushValues_eq_ok {parts : List (Lower Unit)} {blocks : List Block} {slots : List Int}
    (hp : List.Forall₂ Lowers parts blocks) (hs : s.Keyed) (h : pushValues parts s = .ok slots t) :
    ∃ code, Block.values blocks s.layout = some code ∧ Grows s parts.length code t ∧
      slots = s.layout.slots parts.length := by
  induction hp generalizing s t slots with
  | nil =>
    cases h
    exact ⟨[], rfl, Grows.refl s, rfl⟩
  | @cons part block parts blocks hpart _ ih =>
    simp only [pushValues, bind_eq_ok] at h
    obtain ⟨_, s1, h1, slot, s2, h2, rest, s3, h3, h4⟩ := h
    cases h4
    obtain ⟨first, hfirst, g1⟩ := hpart _ _ hs h1
    obtain ⟨rfl, g2⟩ := pushAccumulator_eq_ok h2
    have g12 := g1.trans g2
    obtain ⟨code, hcode, g3, rfl⟩ := ih (g12.keyed hs) h3
    rw [g12.layout hs] at hcode ⊢
    refine ⟨first ++ [Draft.push] ++ code, ?_, ?_, ?_⟩
    · have hcode' : Block.values blocks ((s.layout.behind (first ++ [Draft.push])).raised 1) =
          some code := hcode
      simp [Block.values, hfirst, hcode']
    · have hn : (0 : Int) + 1 + parts.length = (part :: parts).length := by
        simp only [List.length_cons]
        omega
      rw [← hn]
      exact g12.trans g3
    · rw [List.length_cons, Layout.slots_succ, g1.offset, Int.add_zero]
      rfl

theorem updateTarget_eq_ok {op : Operator} {left : Expr} {target : Option Int}
    (h : updateTarget op left s = .ok target t) :
    t = s ∧ Block.updateTarget op left s.layout = some target := by
  unfold updateTarget at h
  by_cases hop : op.isUpdate
  · simp only [hop, if_true] at h
    cases left with
    | «variable» x =>
      obtain ⟨k, hk, rfl⟩ := map_eq_ok.1 h
      obtain ⟨rfl, hx⟩ := slot_eq_ok hk
      exact ⟨rfl, by simp [Block.updateTarget, hop, hx]⟩
    | _ => cases h
  · simp only [hop] at h
    cases h
    simp [Block.updateTarget, hop]

theorem lowers_binary {left right : Lower Unit} {l r : Block} (op : Operator) (e : Expr)
    (hl : Lowers left l) (hr : Lowers right r) :
    Lowers (binary op (updateTarget op e) left right)
      (Block.binary op (Block.updateTarget op e) l r) := by
  intro s t hs h
  simp only [binary, bind_eq_ok] at h
  obtain ⟨target, s0, h0, _, s1, h1, x, s2, h2, _, s3, h3, y, s4, h4, _, s5, h5, _, s6, h6, h7⟩ := h
  obtain ⟨rfl, htarget⟩ := updateTarget_eq_ok h0
  obtain ⟨a, ha, g1⟩ := hl _ _ hs h1
  obtain ⟨rfl, g2⟩ := pushAccumulator_eq_ok h2
  have g12 := g1.trans g2
  obtain ⟨b, hb, g3⟩ := hr _ _ (g12.keyed hs) h3
  obtain ⟨rfl, g4⟩ := pushAccumulator_eq_ok h4
  have g34 := g3.trans g4
  have hx : s1.offset = s0.offset := by rw [g1.offset, Int.add_zero]
  have hy : s3.offset = s0.offset + 1 := by rw [g3.offset, g12.offset]; omega
  rw [hx] at h5 h6
  rw [hy] at h5
  have g6 := (g12.trans g34).trans ((emit_eq_ok h5 rfl).trans (load_eq_ok h6))
  rw [g12.layout hs] at hb
  refine ⟨a ++ [Draft.push] ++ (b ++ [Draft.push]) ++
    (fixed (.binary op.operation (.stack s0.offset) (.stack (s0.offset + 1))) ::
      Draft.load s0.offset :: ((target.map Draft.store).toList ++ Draft.drop 2)), ?_, ?_⟩
  · have hb' : r ((s0.layout.behind (a ++ [Draft.push])).raised 1) = some b := hb
    simp [Block.binary, htarget, ha, hb']
  · cases target with
    | none => exact (g6.trans (drop_eq_ok h7)).cast (by omega) (by simp)
    | some slot =>
      obtain ⟨_, s7, h7, h8⟩ := bind_eq_ok.1 h7
      exact (g6.trans ((store_eq_ok h7).trans (drop_eq_ok h8))).cast (by omega) (by simp)

end Sigil.Lowering
