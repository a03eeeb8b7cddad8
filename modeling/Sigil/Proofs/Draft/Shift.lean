import Sigil.Proofs.Draft.Bounds
import Sigil.Proofs.Draft.Relocation

/-!
A tree has the same draft wherever it is placed, but for the addresses of jumps and the heap cells, which
move along.
-/
namespace Sigil

open Draft (fixed)

namespace Draft

def shift (start cell : Nat) : Draft → Draft
  | fixed i => fixed (i.relocate (start + ·) (cell + ·))
  | call name => call name

variable {start cell : Nat}

theorem isNew_shift (d : Draft) : (d.shift start cell).isNew = d.isNew := by
  cases d with
  | fixed i => cases i <;> rfl
  | call name => rfl

@[simp] theorem isNew_comp_shift : isNew ∘ shift start cell = isNew := funext isNew_shift

theorem countP_shift (code : List Draft) :
    (code.map (shift start cell)).countP isNew = code.countP isNew := by
  rw [List.countP_map, isNew_comp_shift]

@[simp] theorem shift_load (slot : Int) : (load slot).shift start cell = load slot := rfl

@[simp] theorem shift_store (slot : Int) : (store slot).shift start cell = store slot := rfl

@[simp] theorem shift_push : push.shift start cell = push := rfl

@[simp] theorem shift_pushZero : Block.pushZero.shift start cell = Block.pushZero := rfl

@[simp] theorem shift_call (name : String) : (call name).shift start cell = call name := rfl

@[simp] theorem shift_jumpUnless (target : Nat) :
    (jumpUnless target).shift start cell = jumpUnless (start + target) := rfl

theorem map_shift_zero (code : List Draft) : code.map (shift 0 0) = code := by
  have hid : (0 + ·) = (id : Nat → Nat) := funext Nat.zero_add
  have hshift : shift 0 0 = id := by
    funext d
    cases d with
    | fixed i => rw [shift, hid, Instruction.relocate_id, id]
    | call name => rfl
  rw [hshift, List.map_id]

@[simp] theorem map_shift_drop (n : Nat) : (drop n).map (shift start cell) = drop n := by
  unfold drop
  split <;> rfl

end Draft

namespace Layout

def shift (start cell : Nat) (L : Layout) : Layout :=
  { L with start := start + L.start, cell := cell + L.cell }

variable {start cell : Nat} {L : Layout}

/-- Only the length of code counts, and how many heap cells it takes. -/
theorem shift_behind {code code' : List Draft} (hlength : code'.length = code.length)
    (hcount : code'.countP Draft.isNew = code.countP Draft.isNew) :
    (L.shift start cell).behind code' = (L.behind code).shift start cell := by
  simp only [behind, shift, hlength, hcount, Nat.add_assoc]

theorem shift_behind_map (code : List Draft) :
    (L.shift start cell).behind (code.map (Draft.shift start cell)) =
      (L.behind code).shift start cell :=
  shift_behind (List.length_map _) (Draft.countP_shift code)

theorem shift_raised (n : Int) : (L.shift start cell).raised n = (L.raised n).shift start cell := rfl

theorem shift_bind (names : List String) (slots : List Int) :
    (L.shift start cell).bind names slots = (L.bind names slots).shift start cell := rfl

theorem shift_slots (n : Nat) : (L.shift start cell).slots n = L.slots n := rfl

end Layout

namespace Block

variable {start cell : Nat} {block c b : Block} {blocks : List Block}

def Shifts (block : Block) : Prop :=
  ∀ L start cell, block (L.shift start cell) = (block L).map (List.map (Draft.shift start cell))

theorem Shifts.none (hb : Shifts block) {L : Layout} (h : block L = none) :
    block (L.shift start cell) = none := by
  rw [hb, h]
  rfl

theorem Shifts.some (hb : Shifts block) {L : Layout} {code : List Draft} (h : block L = some code) :
    block (L.shift start cell) = some (code.map (Draft.shift start cell)) := by
  rw [hb, h]
  rfl

theorem shifts_literal (v : Value) : Shifts (literal v) := fun _ _ _ => rfl

theorem shifts_lookup (x : String) : Shifts (lookup x) := by
  intro L start cell
  show (L.slot? x).map _ = ((L.slot? x).map _).map _
  cases L.slot? x <;> rfl

theorem shifts_assign (x : String) (hv : Shifts block) : Shifts (assign x block) := by
  intro L start cell
  show ((L.slot? x).bind fun slot => (block (L.shift start cell)).bind _) =
    ((L.slot? x).bind fun slot => (block L).bind _).map _
  cases L.slot? x with
  | none => rfl
  | some slot =>
    cases h : block L with
    | none => simp [hv.none h]
    | some code => simp [hv.some h]

theorem shifts_not (ho : Shifts block) : Shifts (Block.not block) := by
  intro L start cell
  cases h : block L with
  | none => simp [Block.not, h, ho.none h]
  | some code =>
    have hnot : (fixed (.not .accumulator)).shift start cell = fixed (.not .accumulator) := rfl
    simp [Block.not, h, ho.some h, hnot]

theorem shifts_values (hb : ∀ block ∈ blocks, Shifts block) : Shifts (values blocks) := by
  induction blocks with
  | nil => exact fun _ _ _ => rfl
  | cons block blocks ih =>
    intro L start cell
    rw [List.forall_mem_cons] at hb
    cases h : block L with
    | none => simp [values, h, hb.1.none h]
    | some first =>
      have hplace : ((L.shift start cell).behind (first.map (Draft.shift start cell) ++
          [Draft.push])).raised 1 =
            ((L.behind (first ++ [Draft.push])).raised 1).shift start cell := by
        rw [← Layout.shift_raised, ← Layout.shift_behind_map, List.map_append]
        rfl
      have hrest := ih hb.2 ((L.behind (first ++ [Draft.push])).raised 1) start cell
      rw [← hplace] at hrest
      cases h' : values blocks ((L.behind (first ++ [Draft.push])).raised 1) with
      | none => simp [values, h, hb.1.some h, hrest, h']
      | some rest => simp [values, h, hb.1.some h, hrest, h']

theorem shifts_binary (op : Operator) (e : Expr) (hl : Shifts c) (hr : Shifts b) :
    Shifts (binary op (updateTarget op e) c b) := by
  intro L start cell
  have htarget : updateTarget op e (L.shift start cell) = updateTarget op e L := by
    unfold updateTarget
    split <;> rfl
  cases h0 : updateTarget op e L with
  | none => simp [binary, htarget, h0]
  | some target =>
    cases h : c L with
    | none => simp [binary, htarget, h0, h, hl.none h]
    | some x =>
      have hplace : ((L.shift start cell).behind (x.map (Draft.shift start cell) ++
          [Draft.push])).raised 1 = ((L.behind (x ++ [Draft.push])).raised 1).shift start cell := by
        rw [← Layout.shift_raised, ← Layout.shift_behind_map, List.map_append]
        rfl
      have hright := hr ((L.behind (x ++ [Draft.push])).raised 1) start cell
      rw [← hplace] at hright
      have hop : ∀ i j : Int, (fixed (.binary op.operation (.stack i) (.stack j))).shift start cell =
          fixed (.binary op.operation (.stack i) (.stack j)) := fun _ _ => rfl
      have hoffset : (L.shift start cell).offset = L.offset := rfl
      cases h' : b ((L.behind (x ++ [Draft.push])).raised 1) with
      | none => simp [binary, htarget, h0, h, hl.some h, hright, h']
      | some y =>
        cases target <;> simp [binary, htarget, h0, h, hl.some h, hright, h', hop, hoffset]

theorem shifts_letIn (names : List String) (hv : ∀ block ∈ blocks, Shifts block)
    (hb : Shifts block) : Shifts (letIn names blocks block) := by
  intro L start cell
  have hvalues := shifts_values hv
  cases h : values blocks L with
  | none => simp [letIn, h, hvalues.none h]
  | some vs =>
    by_cases hn : names.Nodup
    · have hbody := hb (((L.behind vs).raised blocks.length).bind names (L.slots blocks.length))
        start cell
      rw [← Layout.shift_bind, ← Layout.shift_raised, ← Layout.shift_behind_map] at hbody
      cases h' : block (((L.behind vs).raised blocks.length).bind names (L.slots blocks.length)) with
      | none => simp [letIn, h, hvalues.some h, hn, guard, hbody, h', Layout.shift_slots]
      | some code => simp [letIn, h, hvalues.some h, hn, guard, hbody, h', Layout.shift_slots]
    · have hguard : (guard names.Nodup : Option Unit) = none := if_neg hn
      simp [letIn, h, hvalues.some h, hguard]

theorem shifts_concat (hp : ∀ block ∈ blocks, Shifts block) : Shifts (concat blocks) := by
  intro L start cell
  have hvalues := shifts_values hp
  cases h : values blocks L with
  | none => simp [concat, h, hvalues.none h]
  | some vs =>
    have hcell : ((L.shift start cell).behind (vs.map (Draft.shift start cell))).cell =
        cell + (L.behind vs).cell := by rw [Layout.shift_behind_map]; rfl
    have hjoin : ∀ slots : List Int, (join (L.behind vs).cell slots).map (Draft.shift start cell) =
        join (cell + (L.behind vs).cell) slots := by
      intro slots
      simp only [join, List.map_map]
      rfl
    simp [concat, h, hvalues.some h, hcell, hjoin, Layout.shift_slots, Draft.shift,
      Instruction.relocate, Operand.relocate, Operand.accumulator]

theorem map_shift_leave (mode : Mode) (result : Int) (exit : Nat) :
    (leave mode result exit).map (Draft.shift start cell) = leave mode result (start + exit) := by
  unfold leave
  split <;> rfl

/-- The code of the arms moves along with the address behind the selection. -/
theorem shifts_arms (mode : Mode) (result : Int) {conditions branches : List Block} (L : Layout)
    (start cell : Nat) (hc : ∀ block ∈ conditions, Shifts block)
    (hb : ∀ block ∈ branches, Shifts block) :
    match arms mode result conditions branches L with
    | none => arms mode result conditions branches (L.shift start cell) = none
    | some code => ∃ code', arms mode result conditions branches (L.shift start cell) = some code' ∧
        ∀ exit, code' (start + exit) = (code exit).map (Draft.shift start cell) := by
  induction conditions generalizing L branches with
  | nil => exact ⟨_, rfl, fun _ => rfl⟩
  | cons condition conditions ih =>
    cases branches with
    | nil => exact ⟨_, rfl, fun _ => rfl⟩
    | cons branch branches =>
      rw [List.forall_mem_cons] at hc hb
      cases h : condition L with
      | none => simp [arms, h, hc.1.none h]
      | some test =>
        have hplace : (L.shift start cell).behind (test.map (Draft.shift start cell) ++
            [Draft.jumpUnless 0]) = (L.behind (test ++ [Draft.jumpUnless 0])).shift start cell :=
          Layout.shift_behind (by simp) (by simp)
        have hbranch := hb.1 (L.behind (test ++ [Draft.jumpUnless 0])) start cell
        rw [← hplace] at hbranch
        cases h' : branch (L.behind (test ++ [Draft.jumpUnless 0])) with
        | none => simp [arms, h, hc.1.some h, hbranch, h']
        | some body =>
          have hbehind : (L.shift start cell).behind (test.map (Draft.shift start cell) ++
              [Draft.jumpUnless 0] ++ (body.map (Draft.shift start cell) ++ leave mode result 0)) =
                (L.behind (test ++ [Draft.jumpUnless 0] ++ (body ++ leave mode result 0))).shift
                  start cell :=
            Layout.shift_behind (by simp) (by simp [List.countP_cons])
          have hrest := ih (L.behind (test ++ [Draft.jumpUnless 0] ++ (body ++ leave mode result 0)))
            hc.2 hb.2
          cases h'' : arms mode result conditions branches
              (L.behind (test ++ [Draft.jumpUnless 0] ++ (body ++ leave mode result 0))) with
          | none =>
            rw [h'', ← hbehind] at hrest
            simp only [arms, h, hc.1.some h, h', hbranch, h'', hrest, Option.bind_eq_bind,
              Option.bind_some, Option.bind_none, Option.map_some]
          | some rest =>
            rw [h'', ← hbehind] at hrest
            obtain ⟨rest', hrest', hmoved⟩ := hrest
            simp only [arms, h, hc.1.some h, h', hbranch, h'', hrest', Option.bind_eq_bind,
              Option.bind_some, Option.pure_def, Option.map_some]
            refine ⟨_, rfl, fun exit => ?_⟩
            have hskip : ((L.shift start cell).behind (test.map (Draft.shift start cell) ++
                [Draft.jumpUnless 0] ++ (body.map (Draft.shift start cell) ++
                  leave mode result 0))).start = start +
                    (L.behind (test ++ [Draft.jumpUnless 0] ++ (body ++ leave mode result 0))).start :=
              congrArg Layout.start hbehind
            simp only [hskip, hmoved, List.map_append, List.map_cons, List.map_nil, map_shift_leave,
              Draft.shift_jumpUnless]

theorem shifts_select {conditions branches : List Block} (mode : Mode)
    (hc : ∀ block ∈ conditions, Shifts block) (hb : ∀ block ∈ branches, Shifts block) :
    Shifts (select mode conditions branches) := by
  intro L start cell
  have hinner : ((L.shift start cell).behind [pushZero]).raised 1 =
      ((L.behind [pushZero]).raised 1).shift start cell := by
    rw [← Layout.shift_raised, ← Layout.shift_behind_map]
    rfl
  have harms := shifts_arms mode L.offset ((L.behind [pushZero]).raised 1)
    start cell hc hb
  rw [← hinner] at harms
  cases h : arms mode L.offset conditions branches ((L.behind [pushZero]).raised 1) with
  | none =>
    rw [h] at harms
    have harms' : arms mode (L.shift start cell).offset conditions branches
        (((L.shift start cell).behind [pushZero]).raised 1) = none := harms
    simp [select, h, harms']
  | some code =>
    rw [h] at harms
    obtain ⟨code', hcode', hmoved⟩ := harms
    have hlength : (code' 0).length = (code 0).length := by
      rw [length_arms hcode' 0 (start + 0), hmoved, List.length_map]
    have hexit : (((L.shift start cell).behind [pushZero]).raised 1).start + (code' 0).length =
        start + (((L.behind [pushZero]).raised 1).start + (code 0).length) := by
      rw [hinner, hlength]
      exact Nat.add_assoc _ _ _
    have hoffset : (L.shift start cell).offset = L.offset := rfl
    simp only [select, h, hcode', hexit, hmoved, hoffset, Option.bind_eq_bind, Option.bind_some,
      Option.pure_def, Option.map_some]
    simp

theorem shifts_loop (hc : Shifts c) (hb : Shifts b) : Shifts (loop c b) := by
  intro L start cell
  have htop : ((L.shift start cell).behind [pushZero]).raised 1 =
      ((L.behind [pushZero]).raised 1).shift start cell := by
    rw [← Layout.shift_raised, ← Layout.shift_behind_map]
    rfl
  generalize hM : (L.behind [pushZero]).raised 1 = M at htop
  have hoffset : (L.shift start cell).offset = L.offset := rfl
  cases h : c M with
  | none => simp [loop, htop, hM, h, hc.none h]
  | some test =>
    have hround : (M.shift start cell).behind (test.map (Draft.shift start cell) ++
        [Draft.jumpUnless 0]) = (M.behind (test ++ [Draft.jumpUnless 0])).shift start cell :=
      Layout.shift_behind (by simp) (by simp)
    generalize hN : M.behind (test ++ [Draft.jumpUnless 0]) = N at hround
    cases h' : b N with
    | none => simp [loop, htop, hM, h, hc.some h, hround, hN, h', hb.none h']
    | some code =>
      have hgoto : ∀ target : Nat, (fixed (.goto target)).shift start cell =
          fixed (.goto (start + target)) := fun _ => rfl
      have hstart : ∀ K : Layout, (K.shift start cell).start = start + K.start := fun _ => rfl
      simp [loop, htop, hM, h, hc.some h, hround, hN, h', hb.some h', hgoto, hstart, hoffset,
        Nat.add_assoc]

theorem shifts_call (name : String) (ha : ∀ block ∈ blocks, Shifts block) :
    Shifts (call name blocks) := by
  intro L start cell
  have hvalues := shifts_values ha
  show ((L.arity? name).bind fun _ => _) = ((L.arity? name).bind fun _ => _).map _
  cases L.arity? name with
  | none => rfl
  | some arity =>
    by_cases hn : arity = blocks.length
    · cases h : values blocks L with
      | none => simp [hn, guard, hvalues.none h]
      | some vs =>
        have hpush : ∀ slots : List Int, (slots.map fun slot => fixed (.push (.stack slot))).map
            (Draft.shift start cell) = slots.map fun slot => fixed (.push (.stack slot)) := by
          intro slots
          rw [List.map_map]
          rfl
        simp [hn, guard, hvalues.some h, hpush, Layout.shift_slots]
    · have hguard : (guard (arity = blocks.length) : Option Unit) = none := if_neg hn
      simp [hguard]

end Block

mutual

theorem Expr.shifts_block : ∀ e : Expr, e.block.Shifts
  | .literal v => Block.shifts_literal v
  | .variable x => Block.shifts_lookup x
  | .assign x value => Block.shifts_assign x (shifts_block value)
  | .letIn names values body =>
    Block.shifts_letIn names (shifts_blocks values) (shifts_block body)
  | .loop condition body => Block.shifts_loop (shifts_block condition) (shifts_block body)
  | .select mode conditions branches =>
    Block.shifts_select mode (shifts_blocks conditions) (shifts_blocks branches)
  | .call name arguments => Block.shifts_call name (shifts_blocks arguments)
  | .not operand => Block.shifts_not (shifts_block operand)
  | .concat parts => Block.shifts_concat (shifts_blocks parts)
  | .binary op left right => Block.shifts_binary op left (shifts_block left) (shifts_block right)

theorem Expr.shifts_blocks : ∀ es : List Expr, ∀ block ∈ Expr.blocks es, block.Shifts
  | [] => nofun
  | e :: es => List.forall_mem_cons.2 ⟨shifts_block e, shifts_blocks es⟩

end

theorem Function.shifts_block (f : Function) : f.block.Shifts := by
  intro L start cell
  by_cases hn : f.parameters.Nodup
  · have hbody := f.body.shifts_block (L.grounded.bind f.parameters
      (parameterSlots f.parameters.length)) start cell
    have hplace : (L.shift start cell).grounded.bind f.parameters
        (parameterSlots f.parameters.length) = (L.grounded.bind f.parameters
          (parameterSlots f.parameters.length)).shift start cell := rfl
    rw [← hplace] at hbody
    cases h : f.body.block (L.grounded.bind f.parameters (parameterSlots f.parameters.length)) with
    | none => simp [block, hn, guard, hbody, h]
    | some code =>
      have hresult : (fixed (.result .accumulator)).shift start cell =
          fixed (.result .accumulator) := rfl
      simp [block, hn, guard, hbody, h, hresult]
  · have hguard : (guard f.parameters.Nodup : Option Unit) = none := if_neg hn
    simp [block, hguard]

end Sigil
