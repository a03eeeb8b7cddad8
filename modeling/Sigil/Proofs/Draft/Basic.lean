import Mathlib.Data.Option.Basic
import Sigil.Lowering.Program

/-!
Drafts: the code of a tree as a function of where it is placed. Jumps in a draft have their targets,
calls still name their functions. There is no draft where a name is not in scope.
-/
namespace Sigil

inductive Draft where
  | fixed (i : Instruction)
  | call (name : String)

namespace Draft

open Operand (accumulator)

def link (entry : String → Nat) : Draft → Instruction
  | fixed i => i
  | call name => .call (entry name)

def isNew : Draft → Bool
  | fixed (.new _) => true
  | _ => false

def load (slot : Int) : Draft := fixed (.move accumulator (.stack slot))

def store (slot : Int) : Draft := fixed (.move (.stack slot) accumulator)

def push : Draft := fixed (.push accumulator)

def jumpUnless (target : Nat) : Draft := fixed (.jumpUnless accumulator target)

def drop (n : Nat) : List Draft := if n = 0 then [] else [fixed (.drop n)]

def sites (address : Nat) : List Draft → List (Nat × String)
  | [] => []
  | call name :: ds => (address, name) :: sites (address + 1) ds
  | fixed _ :: ds => sites (address + 1) ds

theorem sites_append (address : Nat) (a b : List Draft) :
    sites address (a ++ b) = sites address a ++ sites (address + a.length) b := by
  induction a generalizing address with
  | nil => rfl
  | cons d a ih =>
    have h : address + 1 + a.length = address + (a.length + 1) := by omega
    cases d <;> simp [sites, ih, h]

end Draft

def Code.Holds (code : Code) (entry : String → Nat) (address : Nat) (drafts : List Draft) : Prop :=
  ∀ i d, drafts[i]? = some d → code.get? (address + i) = some (d.link entry)

theorem Code.holds_of_append {code : Code} {entry : String → Nat} {a b c : List Draft}
    (h : code.instructions.toList = (a ++ b ++ c).map (Draft.link entry)) :
    code.Holds entry a.length b := by
  intro i d hd
  have hi : i < b.length := (List.getElem?_eq_some_iff.1 hd).1
  rw [Code.get?, ← Array.getElem?_toList, h, List.getElem?_map, List.append_assoc,
    List.getElem?_append_right (Nat.le_add_right _ _), Nat.add_sub_cancel_left,
    List.getElem?_append_left hi, hd]
  rfl

theorem Code.holds_cons {code : Code} {entry : String → Nat} {address : Nat} {d : Draft}
    {ds : List Draft} : code.Holds entry address (d :: ds) ↔
      code.get? address = some (d.link entry) ∧ code.Holds entry (address + 1) ds := by
  constructor
  · intro h
    refine ⟨h 0 d rfl, fun i e he => ?_⟩
    rw [Nat.add_assoc, Nat.add_comm 1 i]
    exact h (i + 1) e he
  · rintro ⟨h0, h⟩ i e he
    cases i with
    | zero =>
      cases he
      exact h0
    | succ i =>
      rw [← Nat.add_assoc, Nat.add_right_comm]
      exact h i e he

theorem Code.holds_append {code : Code} {entry : String → Nat} {address : Nat} {a b : List Draft} :
    code.Holds entry address (a ++ b) ↔
      code.Holds entry address a ∧ code.Holds entry (address + a.length) b := by
  induction a generalizing address with
  | nil =>
    refine ⟨fun h => ⟨fun i d hd => ?_, h⟩, fun h => h.2⟩
    cases hd
  | cons d a ih =>
    rw [List.cons_append, holds_cons, holds_cons, ih, List.length_cons, and_assoc,
      Nat.add_right_comm, Nat.add_assoc]

/-- Where a draft is placed: the slots of the variables in scope, the functions, the distance from
the frame base to the top of the stack, the next free heap cell and the next address. -/
structure Layout where
  slot? : String → Option Int
  arity? : String → Option Nat
  offset : Int
  cell : Nat
  start : Nat

namespace Layout

def behind (L : Layout) (code : List Draft) : Layout :=
  { L with start := L.start + code.length, cell := L.cell + code.countP Draft.isNew }

def raised (L : Layout) (n : Int) : Layout := { L with offset := L.offset + n }

def grounded (L : Layout) : Layout := { L with offset := 0 }

def bind (L : Layout) (names : List String) (slots : List Int) : Layout :=
  { L with slot? := fun x => if x ∈ names then (names.zip slots).lookup x else L.slot? x }

def slots (L : Layout) (n : Nat) : List Int := (List.range n).map fun (i : Nat) => L.offset + i

theorem behind_append (L : Layout) (a b : List Draft) :
    L.behind (a ++ b) = (L.behind a).behind b := by
  simp [behind, Nat.add_assoc]

theorem raised_zero (L : Layout) : L.raised 0 = L := by simp [raised]

theorem slots_succ (L : Layout) (n : Nat) :
    L.slots (n + 1) = L.offset :: (L.raised 1).slots n := by
  simp only [slots, raised, List.range_succ_eq_map, List.map_cons, List.map_map]
  congr 1
  · simp
  · refine List.map_congr_left fun i _ => ?_
    simp only [Function.comp_apply]
    omega

@[simp] theorem length_slots (L : Layout) (n : Nat) : (L.slots n).length = n := by simp [slots]

theorem mem_slots {L : Layout} {n : Nat} {t : Int} (h : t ∈ L.slots n) :
    L.offset ≤ t ∧ t < L.offset + n := by
  simp only [slots, List.mem_map, List.mem_range] at h
  obtain ⟨i, hi, rfl⟩ := h
  omega

end Layout

theorem mem_parameterSlots {t : Int} {n : Nat} (h : t ∈ parameterSlots n) :
    -(n : Int) ≤ t ∧ t < 0 := by
  simp only [parameterSlots, List.mem_map, List.mem_range] at h
  obtain ⟨i, hi, rfl⟩ := h
  omega

abbrev Block := Layout → Option (List Draft)

namespace Block

open Draft (fixed load store push)
open Operand (accumulator)

def literal (v : Value) : Block := fun _ => some [fixed (.move accumulator (.constant v))]

def lookup (x : String) : Block := fun L => (L.slot? x).map fun slot => [load slot]

def assign (x : String) (value : Block) : Block := fun L => do
  let slot ← L.slot? x
  let code ← value L
  return code ++ [store slot]

def not (operand : Block) : Block := fun L => do
  let code ← operand L
  return code ++ [fixed (.not accumulator)]

def values : List Block → Block
  | [] => fun _ => some []
  | block :: blocks => fun L => do
    let first ← block L
    let rest ← values blocks ((L.behind (first ++ [push])).raised 1)
    return first ++ [push] ++ rest

def updateTarget (op : Operator) (left : Expr) : Layout → Option (Option Int) := fun L =>
  if op.isUpdate then
    match left with
    | .variable x => (L.slot? x).map some
    | _ => none
  else some none

def binary (op : Operator) (target : Layout → Option (Option Int)) (left right : Block) : Block :=
  fun L => do
    let slot ← target L
    let a ← left L
    let b ← right ((L.behind (a ++ [push])).raised 1)
    return a ++ [push] ++ (b ++ [push]) ++
      (fixed (.binary op.operation (.stack L.offset) (.stack (L.offset + 1))) :: load L.offset ::
        ((slot.map store).toList ++ Draft.drop 2))

def letIn (names : List String) (values : List Block) (body : Block) : Block := fun L => do
  let vs ← Block.values values L
  guard names.Nodup
  let code ← body (((L.behind vs).raised values.length).bind names (L.slots values.length))
  return vs ++ code ++ Draft.drop values.length

def join (cell : Nat) (slots : List Int) : List Draft :=
  slots.map fun slot => fixed (.binary .concat (.heap cell) (.stack slot))

def concat (parts : List Block) : Block := fun L => do
  let vs ← values parts L
  let cell := (L.behind vs).cell
  return vs ++ (fixed (.new cell) :: fixed (.move (.heap cell) (.constant (.string ""))) ::
    (join cell (L.slots parts.length) ++
      (fixed (.move accumulator (.heap cell)) :: fixed (.release cell) :: Draft.drop parts.length)))

def leave (mode : Mode) (result : Int) (exit : Nat) : List Draft :=
  store result :: if mode = .first then [fixed (.goto exit)] else []

def arms (mode : Mode) (result : Int) :
    List Block → List Block → Layout → Option (Nat → List Draft)
  | condition :: conditions, branch :: branches => fun L => do
    let test ← condition L
    let code ← branch (L.behind (test ++ [Draft.jumpUnless 0]))
    let L := L.behind (test ++ [Draft.jumpUnless 0] ++ (code ++ leave mode result 0))
    let rest ← arms mode result conditions branches L
    return fun exit =>
      test ++ [Draft.jumpUnless L.start] ++ (code ++ leave mode result exit) ++ rest exit
  | _, _ => fun _ => some fun _ => []

def pushZero : Draft := fixed (.push (.constant .zero))

def select (mode : Mode) (conditions branches : List Block) : Block := fun L => do
  let inner := (L.behind [pushZero]).raised 1
  let code ← arms mode L.offset conditions branches inner
  return pushZero :: (code (inner.start + (code 0).length) ++ load L.offset :: Draft.drop 1)

def loop (condition body : Block) : Block := fun L => do
  let top := (L.behind [pushZero]).raised 1
  let test ← condition top
  let round := top.behind (test ++ [Draft.jumpUnless 0])
  let code ← body round
  return pushZero :: (test ++ [Draft.jumpUnless (round.start + code.length + 2)] ++
    (code ++ [store L.offset, fixed (.goto top.start)]) ++ load L.offset :: Draft.drop 1)

def call (name : String) (arguments : List Block) : Block := fun L => do
  let arity ← L.arity? name
  guard (arity = arguments.length)
  let vs ← values arguments L
  return vs ++ ((L.slots arguments.length).map fun slot => fixed (.push (.stack slot))) ++
    Draft.call name :: Draft.drop (2 * arguments.length)

section Parts

variable {L : Layout} {code : List Draft} {block left right condition body : Block}
  {blocks conditions branches : List Block}

theorem assign_eq_some {x : String} : assign x block L = some code ↔
    ∃ slot, L.slot? x = some slot ∧ ∃ b, block L = some b ∧ b ++ [store slot] = code := by
  simp only [assign, Option.bind_eq_bind, Option.bind_eq_some_iff, Option.pure_def,
    Option.some.injEq]

theorem not_eq_some : Block.not block L = some code ↔
    ∃ b, block L = some b ∧ b ++ [fixed (.not accumulator)] = code := by
  simp only [Block.not, Option.bind_eq_bind, Option.bind_eq_some_iff, Option.pure_def,
    Option.some.injEq]

theorem values_cons_eq_some : values (block :: blocks) L = some code ↔
    ∃ first, block L = some first ∧
      ∃ rest, values blocks ((L.behind (first ++ [push])).raised 1) = some rest ∧
        first ++ [push] ++ rest = code := by
  simp only [values, Option.bind_eq_bind, Option.bind_eq_some_iff, Option.pure_def,
    Option.some.injEq]

theorem binary_eq_some {op : Operator} {target : Layout → Option (Option Int)} :
    binary op target left right L = some code ↔
      ∃ slot, target L = some slot ∧ ∃ a, left L = some a ∧
        ∃ b, right ((L.behind (a ++ [push])).raised 1) = some b ∧
          a ++ [push] ++ (b ++ [push]) ++
            (fixed (.binary op.operation (.stack L.offset) (.stack (L.offset + 1))) ::
              load L.offset :: ((slot.map store).toList ++ Draft.drop 2)) = code := by
  simp only [binary, Option.bind_eq_bind, Option.bind_eq_some_iff, Option.pure_def,
    Option.some.injEq]

theorem letIn_eq_some {names : List String} : letIn names blocks body L = some code ↔
    ∃ vs, values blocks L = some vs ∧ names.Nodup ∧
      ∃ b, body (((L.behind vs).raised blocks.length).bind names (L.slots blocks.length)) = some b ∧
        vs ++ b ++ Draft.drop blocks.length = code := by
  simp only [letIn, Option.bind_eq_bind, Option.bind_eq_some_iff, Option.guard_eq_some', exists_const,
    Option.pure_def, Option.some.injEq]

theorem concat_eq_some : concat blocks L = some code ↔
    ∃ vs, values blocks L = some vs ∧
      vs ++ (fixed (.new (L.behind vs).cell) ::
        fixed (.move (.heap (L.behind vs).cell) (.constant (.string ""))) ::
          (join (L.behind vs).cell (L.slots blocks.length) ++
            (fixed (.move accumulator (.heap (L.behind vs).cell)) ::
              fixed (.release (L.behind vs).cell) :: Draft.drop blocks.length))) = code := by
  simp only [concat, Option.bind_eq_bind, Option.bind_eq_some_iff, Option.pure_def,
    Option.some.injEq]

theorem arms_cons_eq_some {mode : Mode} {result : Int} {code : Nat → List Draft} :
    arms mode result (condition :: conditions) (body :: branches) L = some code ↔
      ∃ test, condition L = some test ∧ ∃ b, body (L.behind (test ++ [Draft.jumpUnless 0])) = some b ∧
        ∃ rest, arms mode result conditions branches (L.behind (test ++ [Draft.jumpUnless 0] ++
            (b ++ leave mode result 0))) = some rest ∧
          (fun exit => test ++ [Draft.jumpUnless (L.behind (test ++ [Draft.jumpUnless 0] ++
            (b ++ leave mode result 0))).start] ++ (b ++ leave mode result exit) ++ rest exit) =
              code := by
  simp only [arms, Option.bind_eq_bind, Option.bind_eq_some_iff, Option.pure_def,
    Option.some.injEq]

theorem select_eq_some {mode : Mode} : select mode conditions branches L = some code ↔
    ∃ rounds, arms mode L.offset conditions branches ((L.behind [pushZero]).raised 1) = some rounds ∧
      pushZero :: (rounds (((L.behind [pushZero]).raised 1).start + (rounds 0).length) ++
        load L.offset :: Draft.drop 1) = code := by
  simp only [select, Option.bind_eq_bind, Option.bind_eq_some_iff, Option.pure_def,
    Option.some.injEq]

theorem loop_eq_some : loop condition body L = some code ↔
    ∃ test, condition ((L.behind [pushZero]).raised 1) = some test ∧
      ∃ b, body (((L.behind [pushZero]).raised 1).behind (test ++ [Draft.jumpUnless 0])) = some b ∧
        pushZero :: (test ++ [Draft.jumpUnless ((((L.behind [pushZero]).raised 1).behind
            (test ++ [Draft.jumpUnless 0])).start + b.length + 2)] ++
          (b ++ [store L.offset, fixed (.goto ((L.behind [pushZero]).raised 1).start)]) ++
            load L.offset :: Draft.drop 1) = code := by
  simp only [loop, Option.bind_eq_bind, Option.bind_eq_some_iff, Option.pure_def,
    Option.some.injEq]

theorem call_eq_some {name : String} : call name blocks L = some code ↔
    L.arity? name = some blocks.length ∧ ∃ vs, values blocks L = some vs ∧
      vs ++ ((L.slots blocks.length).map fun slot => fixed (.push (.stack slot))) ++
        Draft.call name :: Draft.drop (2 * blocks.length) = code := by
  simp only [call, Option.bind_eq_bind, Option.bind_eq_some_iff, Option.guard_eq_some', exists_const,
    Option.pure_def, Option.some.injEq]
  constructor
  · rintro ⟨arity, harity, rfl, h⟩
    exact ⟨harity, h⟩
  · rintro ⟨harity, h⟩
    exact ⟨_, harity, rfl, h⟩

end Parts

end Block

mutual

def Expr.block : Expr → Block
  | .literal v => Block.literal v
  | .variable x => Block.lookup x
  | .assign x value => Block.assign x value.block
  | .letIn names values body => Block.letIn names (Expr.blocks values) body.block
  | .loop condition body => Block.loop condition.block body.block
  | .select mode conditions branches =>
    Block.select mode (Expr.blocks conditions) (Expr.blocks branches)
  | .call name arguments => Block.call name (Expr.blocks arguments)
  | .not operand => Block.not operand.block
  | .concat parts => Block.concat (Expr.blocks parts)
  | .binary op left right => Block.binary op (Block.updateTarget op left) left.block right.block

def Expr.blocks : List Expr → List Block
  | [] => []
  | e :: es => e.block :: Expr.blocks es

end

def Function.block (f : Function) : Block := fun L => do
  guard f.parameters.Nodup
  let code ← f.body.block
    (L.grounded.bind f.parameters (parameterSlots f.parameters.length))
  return code ++ [.fixed (.result .accumulator)]

def Function.blocks : List Function → Layout → Option (List (String × Nat) × List Draft)
  | [], _ => some ([], [])
  | f :: fs, L => do
    let code ← f.block L
    let (entries, rest) ← Function.blocks fs (L.grounded.behind code)
    return ((f.name, L.start) :: entries, code ++ rest)

theorem Function.block_eq_some {f : Function} {L : Layout} {code : List Draft} :
    f.block L = some code ↔ f.parameters.Nodup ∧
      ∃ b, f.body.block (L.grounded.bind f.parameters (parameterSlots f.parameters.length)) = some b ∧
        b ++ [.fixed (.result .accumulator)] = code := by
  simp only [block, Option.bind_eq_bind, Option.bind_eq_some_iff, Option.guard_eq_some', exists_const,
    Option.pure_def, Option.some.injEq]

theorem Function.blocks_cons_eq_some {f : Function} {fs : List Function} {L : Layout}
    {entries : List (String × Nat)} {code : List Draft} :
    Function.blocks (f :: fs) L = some (entries, code) ↔ ∃ first, f.block L = some first ∧
      ∃ later rest, Function.blocks fs (L.grounded.behind first) = some (later, rest) ∧
        (f.name, L.start) :: later = entries ∧ first ++ rest = code := by
  simp only [blocks, Option.bind_eq_bind, Option.bind_eq_some_iff, Option.pure_def,
    Option.some.injEq, Prod.mk.injEq, Prod.exists]

theorem Function.blocks_grounded (fs : List Function) (L : Layout) :
    Function.blocks fs L.grounded = Function.blocks fs L := by
  cases fs <;> rfl

theorem Function.entries_blocks {fs : List Function} {L : Layout} {entries : List (String × Nat)}
    {code : List Draft} (h : Function.blocks fs L = some (entries, code)) :
    entries.map Prod.fst = fs.map Function.name := by
  induction fs generalizing L entries code with
  | nil =>
    cases h
    rfl
  | cons f fs ih =>
    obtain ⟨first, _, entries', rest, hrest, rfl, rfl⟩ := blocks_cons_eq_some.1 h
    rw [List.map_cons, List.map_cons, ih hrest]

/-- Every function is somewhere among the drafts, and starts where it is said to. -/
theorem Function.block_of_mem {fs : List Function} {L : Layout} {entries : List (String × Nat)}
    {code : List Draft} {f : Function} (h : Function.blocks fs L = some (entries, code))
    (hf : f ∈ fs) : ∃ a b c, f.block (L.grounded.behind a) = some b ∧ code = a ++ b ++ c ∧
      (f.name, L.start + a.length) ∈ entries := by
  induction fs generalizing L entries code with
  | nil => cases hf
  | cons g fs ih =>
    obtain ⟨first, hfirst, entries', rest, hrest, rfl, rfl⟩ := blocks_cons_eq_some.1 h
    rcases List.mem_cons.1 hf with rfl | hf
    · exact ⟨[], first, rest, hfirst, rfl, List.mem_cons_self⟩
    · obtain ⟨a, b, c, hb, rfl, he⟩ := ih hrest hf
      refine ⟨first ++ a, b, c, ?_, by simp, List.mem_cons_of_mem _ ?_⟩
      · rw [Layout.behind_append]
        exact hb
      · rw [List.length_append, ← Nat.add_assoc]
        exact he

end Sigil
