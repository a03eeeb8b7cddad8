import Sigil.Proofs.Draft.Basic

/-!
The addresses in a draft: jumps lead to places from its start up to its end, and its heap cells are
those that it takes.
-/
namespace Sigil

open Draft (fixed)

structure Region where
  first : Nat
  last : Nat
  bottom : Nat
  top : Nat

def Layout.region (L : Layout) (code : List Draft) : Region :=
  ⟨L.start, L.start + code.length, L.cell, L.cell + code.countP Draft.isNew⟩

namespace Region

structure Covers (r q : Region) : Prop where
  first : r.first ≤ q.first
  last : q.last ≤ r.last
  bottom : r.bottom ≤ q.bottom
  top : q.top ≤ r.top

def HasOperand (r : Region) : Operand → Prop
  | .heap cell => r.bottom ≤ cell ∧ cell < r.top
  | _ => True

def HasTarget (r : Region) (target : Nat) : Prop := r.first ≤ target ∧ target ≤ r.last

def HasInstruction (r : Region) : Instruction → Prop
  | .move a b | .binary _ a b => r.HasOperand a ∧ r.HasOperand b
  | .push a | .pop a | .not a | .result a | .exit a => r.HasOperand a
  | .drop _ => True
  | .call _ => False
  | .goto target => r.HasTarget target
  | .jumpUnless a target => r.HasOperand a ∧ r.HasTarget target
  | .new cell | .release cell => r.HasOperand (.heap cell)

def HasDraft (r : Region) : Draft → Prop
  | .fixed i => r.HasInstruction i
  | .call _ => True

def Has (r : Region) (code : List Draft) : Prop := ∀ d ∈ code, r.HasDraft d

variable {r q : Region} {a b : List Draft}

theorem Covers.hasOperand (h : r.Covers q) {o : Operand} (ho : q.HasOperand o) : r.HasOperand o := by
  cases o with
  | heap cell => exact ⟨Nat.le_trans h.bottom ho.1, Nat.lt_of_lt_of_le ho.2 h.top⟩
  | _ => exact trivial

theorem Covers.hasTarget (h : r.Covers q) {target : Nat} (ht : q.HasTarget target) :
    r.HasTarget target :=
  ⟨Nat.le_trans h.first ht.1, Nat.le_trans ht.2 h.last⟩

theorem Covers.hasInstruction (h : r.Covers q) {i : Instruction} (hi : q.HasInstruction i) :
    r.HasInstruction i := by
  cases i with
  | move a b => exact ⟨h.hasOperand hi.1, h.hasOperand hi.2⟩
  | binary op a b => exact ⟨h.hasOperand hi.1, h.hasOperand hi.2⟩
  | jumpUnless a target => exact ⟨h.hasOperand hi.1, h.hasTarget hi.2⟩
  | goto target => exact h.hasTarget hi
  | drop n => exact trivial
  | call target => exact hi
  | new cell => exact h.hasOperand (o := .heap cell) hi
  | release cell => exact h.hasOperand (o := .heap cell) hi
  | _ => exact h.hasOperand hi

theorem Covers.has (h : r.Covers q) (hq : q.Has a) : r.Has a := by
  intro d hd
  cases d with
  | fixed i => exact h.hasInstruction (hq _ hd)
  | call name => exact trivial

@[simp] theorem has_nil : r.Has [] := nofun

@[simp] theorem has_cons {d : Draft} : r.Has (d :: a) ↔ r.HasDraft d ∧ r.Has a := by
  simp [Has]

@[simp] theorem has_append : r.Has (a ++ b) ↔ r.Has a ∧ r.Has b := by
  simp [Has, or_imp, forall_and]

@[simp] theorem has_drop (n : Nat) : r.Has (Draft.drop n) := by
  unfold Draft.drop
  split
  · exact has_nil
  · exact has_cons.2 ⟨trivial, has_nil⟩

@[simp] theorem has_load (slot : Int) : r.HasDraft (Draft.load slot) := ⟨trivial, trivial⟩

@[simp] theorem has_store (slot : Int) : r.HasDraft (Draft.store slot) := ⟨trivial, trivial⟩

@[simp] theorem has_push : r.HasDraft Draft.push := trivial

@[simp] theorem has_pushZero : r.HasDraft Block.pushZero := trivial

@[simp] theorem has_call (name : String) : r.HasDraft (.call name) := trivial

@[simp] theorem has_jumpUnless {target : Nat} :
    r.HasDraft (Draft.jumpUnless target) ↔ r.HasTarget target := by
  simp [Draft.jumpUnless, HasDraft, HasInstruction, HasOperand, Operand.accumulator]

@[simp] theorem has_goto {target : Nat} : r.HasDraft (fixed (.goto target)) ↔ r.HasTarget target :=
  Iff.rfl

end Region

namespace Block

variable {L M : Layout} {a b : List Draft}

def Bounded (block : Block) : Prop := ∀ L code, block L = some code → (L.region code).Has code

/-- A part that is placed behind `x` keeps to the region of the whole. -/
theorem Bounded.within {block : Block} (hb : Bounded block) (h : block M = some b) (x : List Draft)
    (hstart : M.start = L.start + x.length) (hcell : M.cell = L.cell + x.countP Draft.isNew)
    (ha : x ++ b <+: a) : (L.region a).Has b := by
  have hlength := ha.length_le
  have hcount := ha.sublist.countP_le (p := Draft.isNew)
  rw [List.length_append] at hlength
  rw [List.countP_append] at hcount
  have hcovers : (L.region a).Covers (M.region b) := by
    constructor <;> simp only [Layout.region] <;> omega
  exact hcovers.has (hb _ _ h)

/-- A part that is placed first keeps to the region of the whole. -/
theorem Bounded.at_start {block : Block} (hb : Bounded block) (h : block L = some b)
    (ha : b <+: a) : (L.region a).Has b :=
  hb.within h [] rfl rfl ha

theorem bounded_literal (v : Value) : Bounded (literal v) := by
  rintro L _ ⟨⟩
  exact Region.has_cons.2 ⟨⟨trivial, trivial⟩, Region.has_nil⟩

theorem bounded_lookup (x : String) : Bounded (lookup x) := by
  intro L code h
  obtain ⟨slot, -, rfl⟩ := Option.map_eq_some_iff.1 h
  simp

theorem bounded_assign {block : Block} (x : String) (hv : Bounded block) :
    Bounded (assign x block) := by
  intro L _ h
  obtain ⟨slot, -, code, hcode, rfl⟩ := assign_eq_some.1 h
  simp [hv.at_start hcode]

theorem bounded_not {block : Block} (ho : Bounded block) : Bounded (Block.not block) := by
  intro L _ h
  obtain ⟨code, hcode, rfl⟩ := not_eq_some.1 h
  have hnot : ∀ r : Region, r.HasDraft (fixed (.not .accumulator)) := fun _ => trivial
  simp [ho.at_start hcode, hnot]

theorem bounded_values {blocks : List Block} (hb : ∀ block ∈ blocks, Bounded block) :
    Bounded (values blocks) := by
  induction blocks with
  | nil =>
    rintro L _ ⟨⟩
    exact Region.has_nil
  | cons block blocks ih =>
    intro L _ h
    obtain ⟨first, hfirst, rest, hrest, rfl⟩ := values_cons_eq_some.1 h
    rw [List.forall_mem_cons] at hb
    have hbehind := (ih hb.2).within (L := L) hrest (first ++ [Draft.push]) rfl rfl
      (List.prefix_refl _)
    simpa [hb.1.at_start hfirst] using hbehind

theorem bounded_binary {l r : Block} (op : Operator) (target : Layout → Option (Option Int))
    (hl : Bounded l) (hr : Bounded r) : Bounded (binary op target l r) := by
  intro L _ h
  obtain ⟨slot, -, x, hx, y, hy, rfl⟩ := binary_eq_some.1 h
  have hright := fun a => hr.within (L := L) (a := a) hy (x ++ [Draft.push]) rfl rfl
  have hop : ∀ (r : Region) (i j : Int),
      r.HasDraft (fixed (.binary op.operation (.stack i) (.stack j))) := fun _ _ _ => ⟨trivial, trivial⟩
  cases slot <;> simp [hl.at_start hx, hright, hop]

theorem bounded_letIn {blocks : List Block} {block : Block} (names : List String)
    (hv : ∀ block ∈ blocks, Bounded block) (hb : Bounded block) :
    Bounded (letIn names blocks block) := by
  intro L _ h
  obtain ⟨vs, hvs, -, code, hcode, rfl⟩ := letIn_eq_some.1 h
  have hbody := fun a => hb.within (L := L) (a := a) hcode vs rfl rfl
  simp [(bounded_values hv).at_start hvs, hbody]

theorem has_join {r : Region} {cell : Nat} (h : r.HasOperand (.heap cell)) (slots : List Int) :
    r.Has (join cell slots) := by
  intro d hd
  obtain ⟨slot, -, rfl⟩ := List.mem_map.1 hd
  exact ⟨h, trivial⟩

theorem bounded_concat {blocks : List Block} (hp : ∀ block ∈ blocks, Bounded block) :
    Bounded (concat blocks) := by
  intro L _ h
  obtain ⟨vs, hvs, rfl⟩ := concat_eq_some.1 h
  -- the cell is the one behind those of the parts
  have hcell : ∀ rest, (L.region (vs ++ fixed (.new (L.behind vs).cell) :: rest)).HasOperand
      (.heap (L.behind vs).cell) := by
    intro rest
    constructor
    · exact Nat.le_add_right _ _
    · simp only [Layout.region, Layout.behind, List.countP_append, List.countP_cons, Draft.isNew,
        if_true]
      omega
  refine Region.has_append.2 ⟨(bounded_values hp).at_start hvs (List.prefix_append _ _), ?_⟩
  simp only [Region.has_cons, Region.has_append, Region.has_drop, and_true]
  exact ⟨hcell _, ⟨hcell _, trivial⟩, has_join (hcell _) _, ⟨trivial, hcell _⟩, hcell _⟩

theorem has_leave {r : Region} {exit : Nat} (h : r.HasTarget exit) (mode : Mode) (result : Int) :
    r.Has (leave mode result exit) := by
  unfold leave
  split
  · simp [h]
  · simp

theorem length_leave (mode : Mode) (result : Int) (exit : Nat) :
    (leave mode result exit).length = (leave mode result 0).length := by
  unfold leave
  split <;> rfl

theorem countP_leave (mode : Mode) (result : Int) (exit : Nat) :
    (leave mode result exit).countP Draft.isNew = 0 := by
  unfold leave
  split <;> rfl

theorem length_arms {mode : Mode} {result : Int} {cs bs : List Block} {L : Layout}
    {code : Nat → List Draft} (h : arms mode result cs bs L = some code) (i j : Nat) :
    (code i).length = (code j).length := by
  induction cs generalizing bs L code with
  | nil =>
    simp only [arms] at h
    cases h
    rfl
  | cons c cs ih =>
    cases bs with
    | nil =>
      simp only [arms] at h
      cases h
      rfl
    | cons b bs =>
      obtain ⟨test, -, code, -, rest, hrest, rfl⟩ := arms_cons_eq_some.1 h
      have := ih hrest
      cases mode <;> simp [leave, this]

theorem has_arms {mode : Mode} {result : Int} {conditions branches : List Block} {r : Region}
    {code : Nat → List Draft} {exit : Nat} (hc : ∀ block ∈ conditions, Bounded block)
    (hb : ∀ block ∈ branches, Bounded block)
    (h : arms mode result conditions branches L = some code) (hr : r.Covers (L.region (code exit)))
    (hexit : r.HasTarget exit) : r.Has (code exit) := by
  induction conditions generalizing L branches code with
  | nil =>
    simp only [arms, Option.some.injEq] at h
    subst h
    exact Region.has_nil
  | cons condition conditions ih =>
    cases branches with
    | nil =>
      simp only [arms, Option.some.injEq] at h
      subst h
      exact Region.has_nil
    | cons branch branches =>
      obtain ⟨test, htest, body, hbody, rest, hrest, rfl⟩ := arms_cons_eq_some.1 h
      rw [List.forall_mem_cons] at hc hb
      have hjump : ∀ target, (Draft.jumpUnless target).isNew = false := fun _ => rfl
      obtain ⟨hfirst, hlast, hbottom, htop⟩ := hr
      simp only [Layout.region, List.length_append, List.length_singleton, List.countP_append,
        List.countP_singleton, hjump, length_leave mode result exit, countP_leave]
        at hfirst hlast hbottom htop
      have htest' : r.Has test := by
        refine Region.Covers.has ?_ (hc.1 _ _ htest)
        constructor <;> simp only [Layout.region] <;> omega
      have hbody' : r.Has body := by
        refine Region.Covers.has ?_ (hb.1 _ _ hbody)
        constructor <;> simp only [Layout.region, Layout.behind, List.length_append,
          List.length_singleton, List.countP_append, List.countP_singleton, hjump] <;> omega
      have hskip : r.HasTarget (L.behind (test ++ [Draft.jumpUnless 0] ++
          (body ++ leave mode result 0))).start := by
        constructor <;> simp only [Layout.behind, List.length_append, List.length_singleton] <;> omega
      have hrest' : r.Has (rest exit) := by
        refine ih hc.2 hb.2 hrest ?_
        constructor <;> simp only [Layout.region, Layout.behind, List.length_append,
          List.length_singleton, List.countP_append, List.countP_singleton, hjump,
          countP_leave] <;> omega
      simp only [Region.has_append, Region.has_cons, Region.has_jumpUnless, Region.has_nil, and_true]
      exact ⟨⟨⟨htest', hskip⟩, hbody', has_leave hexit mode result⟩, hrest'⟩

theorem bounded_select {conditions branches : List Block} (mode : Mode)
    (hc : ∀ block ∈ conditions, Bounded block) (hb : ∀ block ∈ branches, Bounded block) :
    Bounded (select mode conditions branches) := by
  intro L _ h
  obtain ⟨code, hcode, rfl⟩ := select_eq_some.1 h
  have hlength := length_arms hcode
  have hzero : pushZero.isNew = false := rfl
  generalize hexit : ((L.behind [pushZero]).raised 1).start + (code 0).length = exit
  have hinner : ((L.behind [pushZero]).raised 1).start = L.start + 1 := rfl
  rw [hinner] at hexit
  have hcode' : (L.region (pushZero :: (code exit ++ Draft.load L.offset :: Draft.drop 1))).Has
      (code exit) := by
    refine has_arms hc hb hcode ?_ ?_
    · constructor <;> simp only [Layout.region, Layout.behind, Layout.raised, List.length_cons,
        List.length_append, List.length_nil, List.countP_cons, List.countP_append, List.countP_nil,
        hzero] <;> omega
    · constructor <;> simp only [Layout.region, List.length_cons, List.length_append,
        hlength exit 0] <;> omega
  simp [hcode']

theorem bounded_loop {c b : Block} (hc : Bounded c) (hb : Bounded b) : Bounded (loop c b) := by
  intro L _ h
  obtain ⟨test, htest, body, hbody, rfl⟩ := loop_eq_some.1 h
  have htop : ((L.behind [pushZero]).raised 1).start = L.start + 1 := rfl
  generalize hexit : ((((L.behind [pushZero]).raised 1).behind
    (test ++ [Draft.jumpUnless 0])).start + body.length + 2) = exit
  have hstop : exit = L.start + 1 + (test.length + 1) + body.length + 2 := by
    rw [← hexit]
    simp [Layout.behind, Layout.raised]
  rw [htop]
  generalize hr : L.region _ = r
  have htest' : r.Has test := hr ▸ hc.within htest [pushZero] rfl rfl (by simp)
  have hbody' : r.Has body := by
    refine hr ▸ hb.within hbody (pushZero :: (test ++ [Draft.jumpUnless exit])) ?_ ?_ (by simp)
    · simp only [Layout.behind, Layout.raised, List.length_cons, List.length_append, List.length_nil]
      omega
    · simp [Layout.behind, Layout.raised, Draft.jumpUnless, Draft.isNew, pushZero]
  have htargets : r.HasTarget exit ∧ r.HasTarget (L.start + 1) := by
    subst hr
    constructor <;> constructor <;> simp [Layout.region, hstop] <;> omega
  simp [htest', hbody', htargets]

theorem bounded_call {blocks : List Block} (name : String)
    (ha : ∀ block ∈ blocks, Bounded block) : Bounded (call name blocks) := by
  intro L _ h
  obtain ⟨-, vs, hvs, rfl⟩ := call_eq_some.1 h
  have hslots : ∀ (r : Region) (slots : List Int),
      r.Has (slots.map fun slot => fixed (.push (.stack slot))) := by
    intro r slots d hd
    obtain ⟨slot, -, rfl⟩ := List.mem_map.1 hd
    exact trivial
  simp [(bounded_values ha).at_start hvs, hslots]

end Block

mutual

theorem Expr.bounded_block : ∀ e : Expr, e.block.Bounded
  | .literal v => Block.bounded_literal v
  | .variable x => Block.bounded_lookup x
  | .assign x value => Block.bounded_assign x (bounded_block value)
  | .letIn names values body =>
    Block.bounded_letIn names (bounded_blocks values) (bounded_block body)
  | .loop condition body => Block.bounded_loop (bounded_block condition) (bounded_block body)
  | .select mode conditions branches =>
    Block.bounded_select mode (bounded_blocks conditions) (bounded_blocks branches)
  | .call name arguments => Block.bounded_call name (bounded_blocks arguments)
  | .not operand => Block.bounded_not (bounded_block operand)
  | .concat parts => Block.bounded_concat (bounded_blocks parts)
  | .binary op left right =>
    Block.bounded_binary op (Block.updateTarget op left) (bounded_block left)
      (bounded_block right)

theorem Expr.bounded_blocks : ∀ es : List Expr, ∀ block ∈ Expr.blocks es, block.Bounded
  | [] => nofun
  | e :: es => List.forall_mem_cons.2 ⟨bounded_block e, bounded_blocks es⟩

end

theorem Function.bounded_block (f : Function) : f.block.Bounded := by
  intro L _ h
  obtain ⟨-, code, hcode, rfl⟩ := block_eq_some.1 h
  have hresult : ∀ r : Region, r.HasDraft (fixed (.result .accumulator)) := fun _ => trivial
  have hbody := fun a => f.body.bounded_block.within (L := L) (a := a) hcode [] rfl rfl
  simp [hbody, hresult]

theorem Function.bounded_blocks {fs : List Function} {L : Layout} {entries : List (String × Nat)}
    {code : List Draft} (h : Function.blocks fs L = some (entries, code)) :
    (L.region code).Has code := by
  induction fs generalizing L entries code with
  | nil =>
    cases h
    exact Region.has_nil
  | cons f fs ih =>
    obtain ⟨first, hfirst, entries', rest, hrest, -, rfl⟩ := blocks_cons_eq_some.1 h
    refine Region.has_append.2 ⟨f.bounded_block.at_start hfirst (List.prefix_append _ _), ?_⟩
    refine Region.Covers.has ?_ (ih hrest)
    constructor <;> simp [Layout.region, Layout.behind, Layout.grounded] <;> omega

end Sigil
