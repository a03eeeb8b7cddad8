import Sigil.Proofs.Draft.Program
import Sigil.Proofs.Listing.Code
import Sigil.Proofs.Printing.Inverse

/-!
The listing of a compiled program loses nothing. Every constant of the code is a literal of the program,
zero or the empty string, and the functions have their labels one behind the other.
-/
namespace Sigil

open Draft (fixed)
open Operand (accumulator)

theorem Value.legible_zero : Value.zero.Legible := ⟨by decide +kernel, by decide +kernel⟩

theorem Value.legible_empty : (Value.string "").Legible := by simp [Legible]

namespace Draft

def Legible : Draft → Prop
  | fixed i => i.Legible
  | call _ => True

theorem Legible.link {d : Draft} (h : d.Legible) (entry : String → Nat) : (d.link entry).Legible := by
  cases d with
  | fixed i => exact h
  | call name => exact List.forall_mem_singleton.2 trivial

@[simp] theorem legible_fixed {i : Instruction} :
    (fixed i).Legible ↔ ∀ a ∈ i.arguments, a.Legible := Iff.rfl

@[simp] theorem legible_call (name : String) : (call name).Legible := trivial

@[simp] theorem legible_load (slot : Int) : (load slot).Legible := by simp [load, accumulator]

@[simp] theorem legible_store (slot : Int) : (store slot).Legible := by simp [store, accumulator]

@[simp] theorem legible_push : push.Legible := by simp [push, accumulator]

@[simp] theorem legible_pushZero : Block.pushZero.Legible := by
  simp [Block.pushZero, Value.legible_zero]

@[simp] theorem legible_jumpUnless (target : Nat) : (jumpUnless target).Legible := by
  simp [jumpUnless, accumulator]

theorem legible_drop (n : Nat) : ∀ d ∈ drop n, d.Legible := by
  unfold drop
  split <;> simp

end Draft

namespace Block

variable {block c b : Block} {blocks conditions branches : List Block} {L : Layout}

def Legible (block : Block) : Prop := ∀ L code, block L = some code → ∀ d ∈ code, d.Legible

theorem legible_literal {v : Value} (hv : v.Legible) : Legible (literal v) := by
  rintro L _ ⟨⟩
  simp [hv, accumulator]

theorem legible_lookup (x : String) : Legible (lookup x) := by
  intro L code h
  obtain ⟨slot, -, rfl⟩ := Option.map_eq_some_iff.1 h
  simp

theorem legible_assign (x : String) (hv : Legible block) : Legible (assign x block) := by
  intro L _ h
  obtain ⟨slot, -, code, hcode, rfl⟩ := assign_eq_some.1 h
  exact List.forall_mem_append.2 ⟨hv _ _ hcode, by simp⟩

theorem legible_not (ho : Legible block) : Legible (Block.not block) := by
  intro L _ h
  obtain ⟨code, hcode, rfl⟩ := not_eq_some.1 h
  exact List.forall_mem_append.2 ⟨ho _ _ hcode, by simp [accumulator]⟩

theorem legible_values (hb : ∀ block ∈ blocks, Legible block) : Legible (values blocks) := by
  induction blocks with
  | nil =>
    rintro L _ ⟨⟩
    exact List.forall_mem_nil _
  | cons block blocks ih =>
    intro L _ h
    obtain ⟨first, hfirst, rest, hrest, rfl⟩ := values_cons_eq_some.1 h
    rw [List.forall_mem_cons] at hb
    simp only [List.forall_mem_append]
    exact ⟨⟨hb.1 _ _ hfirst, by simp⟩, ih hb.2 _ _ hrest⟩

theorem legible_binary (op : Operator) (target : Layout → Option (Option Int)) (hl : Legible c)
    (hr : Legible b) : Legible (binary op target c b) := by
  intro L _ h
  obtain ⟨slot, -, x, hx, y, hy, rfl⟩ := binary_eq_some.1 h
  simp only [List.forall_mem_append, List.forall_mem_cons]
  refine ⟨⟨⟨hl _ _ hx, by simp⟩, hr _ _ hy, by simp⟩, by simp, by simp, ?_, Draft.legible_drop 2⟩
  cases slot <;> simp

theorem legible_letIn (names : List String) (hv : ∀ block ∈ blocks, Legible block)
    (hb : Legible block) : Legible (letIn names blocks block) := by
  intro L _ h
  obtain ⟨vs, hvs, -, code, hcode, rfl⟩ := letIn_eq_some.1 h
  simp only [List.forall_mem_append]
  exact ⟨⟨legible_values hv _ _ hvs, hb _ _ hcode⟩, Draft.legible_drop _⟩

theorem legible_concat (hp : ∀ block ∈ blocks, Legible block) : Legible (concat blocks) := by
  intro L _ h
  obtain ⟨vs, hvs, rfl⟩ := concat_eq_some.1 h
  have hjoin : ∀ cell slots, ∀ d ∈ join cell slots, d.Legible := by simp [join]
  simp only [List.forall_mem_append, List.forall_mem_cons]
  exact ⟨legible_values hp _ _ hvs, by simp, by simp [Value.legible_empty], hjoin _ _,
    by simp [accumulator], by simp, Draft.legible_drop _⟩

theorem legible_leave (mode : Mode) (result : Int) (exit : Nat) :
    ∀ d ∈ leave mode result exit, d.Legible := by
  unfold leave
  split <;> simp

theorem legible_arms {mode : Mode} {result : Int} {code : Nat → List Draft}
    (hc : ∀ block ∈ conditions, Legible block) (hb : ∀ block ∈ branches, Legible block)
    (h : arms mode result conditions branches L = some code) (exit : Nat) :
    ∀ d ∈ code exit, d.Legible := by
  induction conditions generalizing L branches code with
  | nil =>
    simp only [arms, Option.some.injEq] at h
    subst h
    exact List.forall_mem_nil _
  | cons condition conditions ih =>
    cases branches with
    | nil =>
      simp only [arms, Option.some.injEq] at h
      subst h
      exact List.forall_mem_nil _
    | cons branch branches =>
      obtain ⟨test, htest, body, hbody, rest, hrest, rfl⟩ := arms_cons_eq_some.1 h
      rw [List.forall_mem_cons] at hc hb
      simp only [List.forall_mem_append]
      exact ⟨⟨⟨hc.1 _ _ htest, by simp⟩, hb.1 _ _ hbody, legible_leave _ _ _⟩, ih hc.2 hb.2 hrest⟩

theorem legible_select (mode : Mode) (hc : ∀ block ∈ conditions, Legible block)
    (hb : ∀ block ∈ branches, Legible block) : Legible (select mode conditions branches) := by
  intro L _ h
  obtain ⟨code, hcode, rfl⟩ := select_eq_some.1 h
  simp only [List.forall_mem_append, List.forall_mem_cons]
  exact ⟨by simp, legible_arms hc hb hcode _, by simp, Draft.legible_drop 1⟩

theorem legible_loop (hc : Legible c) (hb : Legible b) : Legible (loop c b) := by
  intro L _ h
  obtain ⟨test, htest, body, hbody, rfl⟩ := loop_eq_some.1 h
  simp only [List.forall_mem_append, List.forall_mem_cons]
  exact ⟨by simp, ⟨⟨hc _ _ htest, by simp⟩, hb _ _ hbody, by simp⟩, by simp, Draft.legible_drop 1⟩

theorem legible_call (name : String) (ha : ∀ block ∈ blocks, Legible block) :
    Legible (call name blocks) := by
  intro L _ h
  obtain ⟨-, vs, hvs, rfl⟩ := call_eq_some.1 h
  simp only [List.forall_mem_append, List.forall_mem_cons]
  exact ⟨⟨legible_values ha _ _ hvs, by simp⟩, by simp, Draft.legible_drop _⟩

end Block

theorem Expr.mem_blocks {es : List Expr} {block : Block} :
    block ∈ Expr.blocks es ↔ ∃ e ∈ es, e.block = block := by
  induction es with
  | nil => simp [blocks]
  | cons e es ih => simp [blocks, ih, eq_comm]

/-- Where all literals can be read, all constants can. -/
theorem Expr.WellFormed.legible_block {e : Expr} (h : e.WellFormed) : e.block.Legible := by
  have hall : ∀ {es : List Expr}, (∀ e ∈ es, e.block.Legible) →
      ∀ block ∈ Expr.blocks es, block.Legible := by
    intro es hes block hblock
    obtain ⟨e, he, rfl⟩ := Expr.mem_blocks.1 hblock
    exact hes e he
  induction h with
  | number hfinite hsign => exact Block.legible_literal ⟨hfinite, hsign⟩
  | string hs => exact Block.legible_literal hs
  | «variable» _ => exact Block.legible_lookup _
  | assign _ _ ihv => exact Block.legible_assign _ ihv
  | letIn _ _ _ _ ihv ihb => exact Block.legible_letIn _ (hall ihv) ihb
  | loop _ _ ihc ihb => exact Block.legible_loop ihc ihb
  | select _ _ _ _ ihc ihb => exact Block.legible_select _ (hall ihc) (hall ihb)
  | call _ _ iha => exact Block.legible_call _ (hall iha)
  | not _ ih => exact Block.legible_not ih
  | concat _ ih => exact Block.legible_concat (hall ih)
  | binary _ _ ihl ihr => exact Block.legible_binary _ _ ihl ihr

namespace Function

variable {f : Function} {fs : List Function} {L : Layout} {entries : List (String × Nat)}
  {code : List Draft}

theorem WellFormed.legible_block (hf : f.WellFormed) : f.block.Legible := by
  intro L _ h
  obtain ⟨-, b, hb, rfl⟩ := block_eq_some.1 h
  exact List.forall_mem_append.2 ⟨hf.body.legible_block _ _ hb, by simp [accumulator]⟩

theorem legible_blocks (hf : ∀ f ∈ fs, f.WellFormed) (h : blocks fs L = some (entries, code)) :
    ∀ d ∈ code, d.Legible := by
  induction fs generalizing L entries code with
  | nil =>
    cases h
    exact List.forall_mem_nil _
  | cons f fs ih =>
    obtain ⟨first, hfirst, entries', rest, hrest, -, rfl⟩ := blocks_cons_eq_some.1 h
    rw [List.forall_mem_cons] at hf
    exact List.forall_mem_append.2 ⟨hf.1.legible_block _ _ hfirst, ih hf.2 hrest⟩

/-- The entries of functions come in the order of their addresses, and there is an instruction at each. -/
theorem entries_ordered (h : blocks fs L = some (entries, code)) :
    entries.Pairwise (·.2 < ·.2) ∧ ∀ e ∈ entries, L.start ≤ e.2 ∧ e.2 < L.start + code.length := by
  induction fs generalizing L entries code with
  | nil =>
    cases h
    exact ⟨.nil, List.forall_mem_nil _⟩
  | cons f fs ih =>
    obtain ⟨first, hfirst, entries, rest, hrest, rfl, rfl⟩ := blocks_cons_eq_some.1 h
    obtain ⟨-, b, -, rfl⟩ := block_eq_some.1 hfirst
    obtain ⟨hordered, hinside⟩ := ih hrest
    have hstart : (L.grounded.behind (b ++ [fixed (.result accumulator)])).start =
        L.start + (b.length + 1) := by
      simp [Layout.behind, Layout.grounded]
    rw [hstart] at hinside
    simp only [List.pairwise_cons, List.forall_mem_cons, List.length_append, List.length_singleton]
    refine ⟨⟨fun e he => ?_, hordered⟩, ⟨Nat.le_refl _, by omega⟩, fun e he => ?_⟩
    · have := hinside e he
      omega
    · have := hinside e he
      omega

end Function

namespace Program

variable {p q : Program} {s t : Lowering} {entries : List (String × Nat)} {drafts : List Draft}
  {c d : Code}

/-- Whatever was compiled before, the listing of a program that is read from a text shows its code. -/
theorem Emitted.legible (h : p.Emitted s entries drafts c t) (hp : p.WellFormed) : c.Legible := by
  obtain ⟨b, rest, hb, hrest, rfl⟩ := draftAt_eq_some.1 h.draft
  obtain ⟨hordered, hinside⟩ := Function.entries_ordered hrest
  have hnames := Function.entries_blocks hrest
  have hdrafts : ∀ d ∈ b ++ [fixed (.exit accumulator)] ++ rest, d.Legible := by
    simp only [List.forall_mem_append]
    exact ⟨⟨hp.body.legible_block _ _ hb, by simp [accumulator]⟩,
      Function.legible_blocks hp.functions hrest⟩
  refine ⟨?_, ?_, ?_, ?_⟩
  · rw [h.instructions, List.forall_mem_map]
    exact fun d hd => (hdrafts d hd).link _
  · rw [h.labels, List.forall_mem_map]
    intro e he
    have hname : e.1 ∈ p.functions.map Function.name := hnames ▸ List.mem_map_of_mem he
    obtain ⟨f, hf, hname⟩ := List.mem_map.1 hname
    show IsName e.1
    exact hname ▸ (hp.functions f hf).name
  · rw [h.labels, List.pairwise_map]
    exact hordered
  · have hsize : c.size = (b ++ [fixed (.exit accumulator)] ++ rest).length := by
      have := congrArg List.length h.instructions
      simpa [Code.size] using this
    rw [h.labels, List.forall_mem_map, hsize, List.length_append]
    intro e he
    have hlt := (hinside e he).2
    simpa [Layout.behind, layoutIn, layout] using hlt

/-- From the listing of a compiled program its code is known, whatever its strings look like. -/
theorem listing_faithful {source source' : String} (hp : parse source = .ok p)
    (hq : parse source' = .ok q) (hc : p.compile = .ok c) (hd : q.compile = .ok d)
    (h : c.listing = d.listing) : c = d := by
  obtain ⟨_, _, _, hc⟩ := emitted_of_compile hc
  obtain ⟨_, _, _, hd⟩ := emitted_of_compile hd
  exact Code.listing_inj (hc.legible (wellFormed_of_parse hp)) (hd.legible (wellFormed_of_parse hq)) h

def quoting (x : String) : Program :=
  ⟨[⟨"f", [x], .variable x⟩], .call "f" [.literal (.string "a\n0001\tExit\t%0")]⟩

theorem wellFormed_quoting {x : String} (hx : IsName x) : (quoting x).WellFormed := by
  have hf : IsName "f" := ⟨'f', [], rfl, rfl, by simp⟩
  have hstring : (Expr.literal (.string "a\n0001\tExit\t%0")).WellFormed :=
    .string (by simp [LexicalRule.quote])
  exact ⟨by simpa [quoting] using Function.WellFormed.mk hf (by simpa using hx) (.variable hx),
    .call hf (by simpa using hstring)⟩

/-- The name of a parameter is not part of the code. -/
theorem listing_quoting :
    parse "~f(x)(x)\nf\x7b'a\n0001\tExit\t%0'\x7d" = .ok (quoting "x") ∧
      parse "~f(y)(y)\nf\x7b'a\n0001\tExit\t%0'\x7d" = .ok (quoting "y") ∧
      ∃ c d, (quoting "x").compile = .ok c ∧ (quoting "y").compile = .ok d ∧
        c.listing = d.listing ∧ c = d := by
  have hrender : (quoting "x").render = "~f(x)(x)\nf\x7b'a\n0001\tExit\t%0'\x7d" ∧
      (quoting "y").render = "~f(y)(y)\nf\x7b'a\n0001\tExit\t%0'\x7d" := by decide +kernel
  have hparse : ∀ x, IsName x → parse (quoting x).render = .ok (quoting x) :=
    fun x hx => parse_of_reads (reads_program (wellFormed_quoting hx))
  have hx := hparse "x" ⟨'x', [], rfl, rfl, by simp⟩
  have hy := hparse "y" ⟨'y', [], rfl, rfl, by simp⟩
  rw [hrender.1] at hx
  rw [hrender.2] at hy
  obtain ⟨c, hc, hd⟩ : ∃ c, (quoting "x").compile = .ok c ∧ (quoting "y").compile = .ok c :=
    ⟨_, rfl, rfl⟩
  exact ⟨hx, hy, c, c, hc, hd, rfl, listing_faithful hx hy hc hd rfl⟩

end Program
end Sigil
