import Sigil.Proofs.Scoping.Linking
import Sigil.Proofs.Scoping.Refusals
import Sigil.Proofs.Scoping.WellScoped

/-!
Compilation succeeds for the programs that have a draft and tell their functions apart by name,
which are those that are well scoped. No program fails for a call that cannot be linked.
-/
namespace Sigil

open Draft (fixed)

namespace Lowering

variable {s t : Lowering} {e : SemanticError}

theorem register_eq_error {f : Function} (h : f.register s = .error e t) :
    (s.symbols.arity? f.name).isSome ∧ ¬ e.Linking := by
  rw [Function.register_eq] at h
  by_cases hname : (s.symbols.arity? f.name).isSome
  · rw [if_pos hname] at h
    cases h
    exact ⟨hname, id⟩
  · rw [if_neg hname] at h
    cases h

theorem register_all_eq_error {fs : List Function} (h : fs.forM Function.register s = .error e t) :
    ((fs.map Function.name).Nodup → ∃ f ∈ fs, (s.symbols.arity? f.name).isSome) ∧ ¬ e.Linking := by
  induction fs generalizing s with
  | nil => cases h
  | cons f fs ih =>
    rcases bind_eq_error.1 h with h | ⟨_, s1, h1, h⟩
    · obtain ⟨hf, he⟩ := register_eq_error h
      exact ⟨fun _ => ⟨f, List.mem_cons_self, hf⟩, he⟩
    · obtain ⟨hknown, he⟩ := ih h
      refine ⟨fun hn => ?_, he⟩
      obtain ⟨hnot, hn⟩ := List.nodup_cons.1 hn
      obtain ⟨g, hg, hsome⟩ := hknown hn
      have hne : (g.name == f.name) = false := by
        simp only [beq_eq_false_iff_ne, ne_eq]
        exact fun hname => hnot (List.mem_map.2 ⟨g, hg, hname⟩)
      obtain ⟨-, rfl⟩ := register_eq_ok h1
      simp only [Symbols.arity?, List.lookup_cons, hne] at hsome
      exact ⟨g, List.mem_cons_of_mem _ hg, hsome⟩

theorem function_eq_error {f : Function} (hs : s.Keyed) (h : f.lower s = .error e t) :
    f.block s.layout = none ∧ ¬ e.Linking := by
  simp only [Function.lower, bind_eq_error, bindSlots_ne_error, popScope_ne_error, emit_ne_error,
    and_false, exists_false, or_false, false_or] at h
  rcases h with h | ⟨_, _, h1, h | ⟨_, s1, h2, h | ⟨ids, s2, h3, _, s3, h4, h⟩⟩⟩
  · cases h
  · cases h
  · obtain ⟨hn, he⟩ := pushScope_eq_error h
    have hguard : (guard f.parameters.Nodup : Option Unit) = none := if_neg hn
    exact ⟨by simp [Function.block, hguard], he⟩
  · cases h1
    cases h2
    have hs1 : Keyed { s with
        linker := s.linker.bind f.name s.code.size, code := s.code.label s.code.size f.name,
        offset := 0 } := ⟨hs.slots, hs.scopes⟩
    obtain ⟨hn, rfl⟩ := pushScope_bindSlots h3 h4
    obtain ⟨hcode, he⟩ := refuses_expr f.body _ _ _ (hs1.bound _ _) h
    rw [bound_layout hs1 hn] at hcode
    have hcode' : f.body.block (s.layout.grounded.bind f.parameters
        (parameterSlots f.parameters.length)) = none := hcode
    exact ⟨by simp [Function.block, hcode'], he⟩

theorem functions_eq_error {fs : List Function} (hs : s.Keyed)
    (h : fs.forM Function.lower s = .error e t) :
    Function.blocks fs s.layout = none ∧ ¬ e.Linking := by
  induction fs generalizing s with
  | nil => cases h
  | cons f fs ih =>
    rcases bind_eq_error.1 h with h | ⟨_, s1, h1, h⟩
    · obtain ⟨hcode, he⟩ := function_eq_error hs h
      exact ⟨by simp [Function.blocks, hcode], he⟩
    · obtain ⟨code, hcode, g⟩ := function_eq_ok hs h1
      obtain ⟨hrest, he⟩ := ih g.keyed h
      rw [← Function.blocks_grounded, g.layout] at hrest
      exact ⟨by simp [Function.blocks, hcode, hrest], he⟩

end Lowering

section

variable {fs : List Function} {L : Layout}

theorem Function.resolves_block {f : Function} (hp : f.body.Paired) (hL : L.Sees fs []) :
    (∃ code, f.block L = some code) ↔ f.parameters.Nodup ∧ f.body.WellScoped fs f.parameters := by
  have hparameters : (L.grounded.bind f.parameters (parameterSlots f.parameters.length)).Sees fs
      (f.parameters ++ []) :=
    Layout.Sees.bind ⟨hL.slots, hL.arities⟩ (by simp [parameterSlots])
  rw [List.append_nil] at hparameters
  have hbody := f.body.resolves_block fs hp _ _ hparameters
  simp only [block_eq_some]
  constructor
  · rintro ⟨_, hn, code, hcode, -⟩
    exact ⟨hn, hbody.1 ⟨code, hcode⟩⟩
  · rintro ⟨hn, hscoped⟩
    obtain ⟨code, hcode⟩ := hbody.2 hscoped
    exact ⟨_, hn, code, hcode, rfl⟩

theorem Function.resolves_blocks {gs : List Function} (hp : ∀ f ∈ gs, f.body.Paired)
    (hL : L.Sees fs []) : (∃ code, Function.blocks gs L = some code) ↔
      ∀ f ∈ gs, f.parameters.Nodup ∧ f.body.WellScoped fs f.parameters := by
  induction gs generalizing L with
  | nil => exact ⟨fun _ => nofun, fun _ => ⟨_, rfl⟩⟩
  | cons f gs ih =>
    rw [List.forall_mem_cons] at hp
    have hrest : ∀ code, (L.grounded.behind code).Sees fs [] := fun _ => ⟨hL.slots, hL.arities⟩
    simp only [blocks, Option.bind_eq_bind, Option.bind_eq_some_iff, Option.pure_def,
      List.forall_mem_cons]
    constructor
    · rintro ⟨_, code, hcode, rest, hblocks, -⟩
      exact ⟨(resolves_block hp.1 hL).1 ⟨code, hcode⟩, (ih hp.2 (hrest code)).1 ⟨rest, hblocks⟩⟩
    · rintro ⟨hf, hgs⟩
      obtain ⟨code, hcode⟩ := (resolves_block hp.1 hL).2 hf
      obtain ⟨rest, hblocks⟩ := (ih hp.2 (hrest code)).2 hgs
      exact ⟨_, code, hcode, rest, hblocks, rfl⟩

end

namespace Program

variable {p : Program} {e : SemanticError} {s t : Lowering}

theorem arity?_eq_some (hn : (p.functions.map Function.name).Nodup) (name : String) (n : Nat) :
    p.arity? name = some n ↔ ∃ f ∈ p.functions, f.name = name ∧ f.parameters.length = n := by
  have hkeys : ((p.functions.map fun f => (f.name, f.parameters.length)).map Prod.fst).Nodup := by
    rwa [List.map_map]
  rw [← lookup_arities hn, lookup_reverse hkeys]
  constructor
  · intro h
    obtain ⟨f, hf, he⟩ := List.mem_map.1 (mem_of_lookup h)
    cases he
    exact ⟨f, hf, rfl, rfl⟩
  · rintro ⟨f, hf, rfl, rfl⟩
    exact lookup_of_mem hkeys (List.mem_map_of_mem hf)

theorem layout_sees (hn : (p.functions.map Function.name).Nodup) :
    p.layout.Sees p.functions [] where
  slots := fun x => by simp [layout]
  arities := arity?_eq_some hn

theorem exists_draft (hp : p.Paired) (hn : (p.functions.map Function.name).Nodup) :
    (∃ d, p.draft = some d) ↔
      p.body.WellScoped p.functions [] ∧
        ∀ f ∈ p.functions, f.parameters.Nodup ∧ f.body.WellScoped p.functions f.parameters := by
  have hbody := p.body.resolves_block p.functions hp.body _ _ (layout_sees hn)
  have hfunctions : ∀ code, (∃ d, Function.blocks p.functions (p.layout.behind code) = some d) ↔ _ :=
    fun code => Function.resolves_blocks hp.functions ((layout_sees hn).behind code)
  constructor
  · rintro ⟨⟨entries, code⟩, h⟩
    obtain ⟨b, rest, hb, hrest, -⟩ := draft_eq_some.1 h
    exact ⟨hbody.1 ⟨b, hb⟩, (hfunctions _).1 ⟨_, hrest⟩⟩
  · rintro ⟨hscoped, hscopeds⟩
    obtain ⟨b, hb⟩ := hbody.2 hscoped
    obtain ⟨⟨entries, rest⟩, hrest⟩ := (hfunctions (b ++ [fixed (.exit .accumulator)])).2 hscopeds
    exact ⟨_, draft_eq_some.2 ⟨b, rest, hb, hrest, rfl⟩⟩

theorem wellScoped_iff : p.WellScoped ↔ (p.functions.map Function.name).Nodup ∧
    p.body.WellScoped p.functions [] ∧
      ∀ f ∈ p.functions, f.parameters.Nodup ∧ f.body.WellScoped p.functions f.parameters := by
  constructor
  · intro h
    exact ⟨h.names, h.body, fun f hf => ⟨h.parameters f hf, h.functions f hf⟩⟩
  · rintro ⟨hn, hbody, hf⟩
    exact ⟨hn, fun f h => (hf f h).1, fun f h => (hf f h).2, hbody⟩

theorem lower_eq_ok {code : Code} (h : p.lower .start = .ok code t) :
    (p.functions.map Function.name).Nodup ∧ ∃ d, p.draft = some d := by
  obtain ⟨entries, drafts, g⟩ := emitted_of_lower Lowering.idle_start h
  exact ⟨g.names, _, g.draft_eq⟩

theorem lower_eq_error (h : p.lower .start = .error e t) :
    ¬ ((p.functions.map Function.name).Nodup ∧ ∃ d, p.draft = some d) ∧ ¬ e.Linking := by
  have hidle := Lowering.idle_start
  simp only [lower, bind_eq_error, Lowering.emit_ne_error, false_or] at h
  -- registration, the body, the functions, linking, and handing the code out
  rcases h with h | ⟨_, s1, h1, h | ⟨_, s2, h2, _, s3, h3, h | ⟨_, s4, h4, h | ⟨_, _, _, h⟩⟩⟩⟩
  · obtain ⟨hknown, he⟩ := Lowering.register_all_eq_error h
    refine ⟨fun hd => ?_, he⟩
    obtain ⟨f, -, hf⟩ := hknown hd.1
    cases hf
  · obtain ⟨hn, -, lastId, hlast, rfl⟩ := Lowering.register_all_eq_ok h1
    obtain ⟨hb, he⟩ := Lowering.refuses_expr p.body (p.registered .start lastId) _ _
      (p.keyed_registered hidle.keyed hlast) h
    rw [layout_registered hn hidle, layoutIn_start] at hb
    exact ⟨by simp [draft, draftAt, hb], he⟩
  · obtain ⟨-, b, hb, hs3, hlayout, -⟩ := main_of_lower hidle h1 h2 h3
    obtain ⟨hrest, he⟩ := Lowering.functions_eq_error hs3 h
    rw [hlayout, layoutIn_start] at hrest
    rw [layoutIn_start] at hb
    exact ⟨by simp [draft, draftAt, hb, hrest], he⟩
  · obtain ⟨entries, drafts, g⟩ := drafted_of_lower hidle h1 h2 h3 h4
    exact absurd h g.link_ne_error
  · cases h

/-- No program is refused for a call that cannot be linked. -/
theorem compile_ne_link (p : Program) (cause : LinkError) : p.compile ≠ .error (.link cause) := by
  unfold compile
  cases h : p.lower .start with
  | ok code t => exact nofun
  | error e t =>
    intro he
    cases he
    exact (lower_eq_error h).2 trivial

theorem compiles_iff_draft : (∃ code, p.compile = .ok code) ↔
    (p.functions.map Function.name).Nodup ∧ ∃ d, p.draft = some d := by
  unfold compile
  cases h : p.lower .start with
  | ok code t => exact ⟨fun _ => lower_eq_ok h, fun _ => ⟨code, rfl⟩⟩
  | error e t => exact ⟨nofun, fun hd => absurd hd (lower_eq_error h).1⟩

/-- Compilation succeeds exactly for the programs that are well scoped. -/
theorem compiles_iff_wellScoped (hp : p.Paired) :
    ((∃ code, p.compile = .ok code) ↔ p.WellScoped) ∧
      ∀ cause, p.compile ≠ .error (.link cause) := by
  refine ⟨?_, p.compile_ne_link⟩
  rw [compiles_iff_draft, wellScoped_iff]
  exact and_congr_right fun hn => exists_draft hp hn

def ping : Function := ⟨"ping", ["x"], .call "pong" [.variable "x"]⟩

def pong : Function := ⟨"pong", ["x"], .call "ping" [.variable "x"]⟩

def pingPong : Program :=
  ⟨[ping, pong],
    .letIn ["x"] [.literal (.string "a")]
      (.letIn ["x"] [.variable "x"] (.call "ping" [.variable "x"]))⟩

theorem paired_pingPong : pingPong.Paired :=
  have hx : ∀ e ∈ [Expr.variable "x"], e.Paired := List.forall_mem_singleton.2 .variable
  { functions := List.forall_mem_cons.2 ⟨.call hx, List.forall_mem_singleton.2 (.call hx)⟩
    body := .letIn rfl (List.forall_mem_singleton.2 .literal) (.letIn rfl hx (.call hx)) }

theorem wellScoped_pingPong : pingPong.WellScoped :=
  have hx : ∀ scope, ∀ e ∈ [Expr.variable "x"],
      Expr.WellScoped pingPong.functions ("x" :: scope) e :=
    fun _ => List.forall_mem_singleton.2 (.variable List.mem_cons_self)
  have hping : ping ∈ pingPong.functions := List.mem_cons_self
  have hpong : pong ∈ pingPong.functions := List.mem_cons_of_mem _ List.mem_cons_self
  have hn : ["x"].Nodup := List.pairwise_singleton _ _
  { names := by decide
    parameters := List.forall_mem_cons.2 ⟨hn, List.forall_mem_singleton.2 hn⟩
    functions := List.forall_mem_cons.2
      ⟨.call hpong rfl (hx _), List.forall_mem_singleton.2 (.call hping rfl (hx _))⟩
    body := .letIn hn (List.forall_mem_singleton.2 .literal)
      (.letIn hn (hx _) (.call hping rfl (hx _))) }

theorem compiles_pingPong : pingPong.Paired ∧ ∃ code, pingPong.compile = .ok code :=
  ⟨paired_pingPong, (compiles_iff_wellScoped paired_pingPong).1.2 wellScoped_pingPong⟩

end Program

end Sigil
