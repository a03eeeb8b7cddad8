import Sigil.Pipeline
import Sigil.Proofs.Parsing.Acceptance
import Sigil.Proofs.Tokens.Tiling

/-! Programs whose text can be read back, and that every program read from a text is one. -/
namespace Sigil

open LexicalRule (quote)

/-- Names are identifiers, bindings and selections have as many parts on both sides, strings have no
quote inside, and numbers are finite and without sign. -/
inductive Expr.WellFormed : Expr → Prop
  | number {x : Float} (hfinite : Number.isFinite x = true) (hsign : x.toBits.toNat < 2 ^ 63) :
      WellFormed (.literal (.number x))
  | string {s : String} (hs : quote ∉ s.toList) : WellFormed (.literal (.string s))
  | variable {name : String} (hn : IsName name) : WellFormed (.variable name)
  | assign {name : String} {value : Expr} (hn : IsName name) (hv : WellFormed value) :
      WellFormed (.assign name value)
  | letIn {names : List String} {values : List Expr} {body : Expr} (hn : ∀ x ∈ names, IsName x)
      (hv : ∀ e ∈ values, WellFormed e) (hlength : names.length = values.length)
      (hb : WellFormed body) : WellFormed (.letIn names values body)
  | loop {condition body : Expr} (hc : WellFormed condition) (hb : WellFormed body) :
      WellFormed (.loop condition body)
  | select {mode : Mode} {conditions branches : List Expr} (hc : ∀ e ∈ conditions, WellFormed e)
      (hb : ∀ e ∈ branches, WellFormed e) (hlength : conditions.length = branches.length)
      (hsome : conditions ≠ []) : WellFormed (.select mode conditions branches)
  | call {name : String} {arguments : List Expr} (hn : IsName name)
      (ha : ∀ e ∈ arguments, WellFormed e) : WellFormed (.call name arguments)
  | not {operand : Expr} (h : WellFormed operand) : WellFormed (.not operand)
  | concat {parts : List Expr} (h : ∀ e ∈ parts, WellFormed e) : WellFormed (.concat parts)
  | binary {op : Operator} {left right : Expr} (hl : WellFormed left) (hr : WellFormed right) :
      WellFormed (.binary op left right)

structure Function.WellFormed (f : Function) : Prop where
  name : IsName f.name
  parameters : ∀ x ∈ f.parameters, IsName x
  body : f.body.WellFormed

structure Program.WellFormed (p : Program) : Prop where
  functions : ∀ f ∈ p.functions, f.WellFormed
  body : p.body.WellFormed

structure Token.Proper (t : Token) : Prop where
  identifier : t.kind = .identifier → IsName t.lexeme
  string : t.kind = .string → quote ∉ t.lexeme.toList
  number : t.kind = .number → ∃ text w f, t.lexeme = String.ofList text ∧ Number.Numeral text w f

def Phrase.WellFormed : Phrase → Prop
  | .program p => p.WellFormed
  | .functions fs => ∀ f ∈ fs, f.WellFormed
  | .function f => f.WellFormed
  | .expression e => e.WellFormed
  | .primary e => e.WellFormed
  | .expressions es => ∀ e ∈ es, e.WellFormed
  | .arms cs es => (∀ c ∈ cs, c.WellFormed) ∧ (∀ e ∈ es, e.WellFormed) ∧ cs.length = es.length
  | .tail steps => ∀ step ∈ steps, step.2.WellFormed

theorem Expr.WellFormed.chain {first : Expr} {steps : List (Operator × Expr)}
    (hf : first.WellFormed) (hs : ∀ step ∈ steps, step.2.WellFormed) :
    (first.chain steps).WellFormed := by
  induction steps generalizing first with
  | nil => exact hf
  | cons step steps ih =>
    obtain ⟨hstep, hs⟩ := List.forall_mem_cons.1 hs
    exact ih (.binary hf hstep) hs

theorem isName_map {names : List Token} (hn : ∀ x ∈ names, x.kind = .identifier)
    (h : ∀ x ∈ names, x.Proper) : ∀ name ∈ names.map Token.lexeme, IsName name := by
  intro name hname
  obtain ⟨x, hx, rfl⟩ := List.mem_map.1 hname
  exact (h x hx).identifier (hn x hx)

theorem wellFormed_one : Expr.WellFormed (.literal (.number 1)) :=
  .number (by decide +kernel) (by decide +kernel)

/-- What is derived from proper tokens is well formed. -/
theorem wellFormed_of_derives {p : Phrase} {a : List Token} (h : Derives p a)
    (ha : ∀ t ∈ a, t.Proper) : p.WellFormed := by
  induction h with
  | program _ _ ihf ihb =>
    obtain ⟨h1, h2⟩ := List.forall_mem_append.1 ha
    exact ⟨ihf h1, ihb h2⟩
  | noFunction | noStep | noExpression => exact List.forall_mem_nil _
  | moreFunctions _ _ iha ihb | moreExpressions _ _ iha ihb =>
    obtain ⟨h1, h2⟩ := List.forall_mem_append.1 ha
    exact List.forall_mem_cons.2 ⟨iha h1, ihb h2⟩
  | function hs hf hp hn hq hr _ _ hu iha ihb =>
    simp only [List.forall_mem_cons, List.forall_mem_append] at ha
    obtain ⟨-, h1, -, h2, -, -, h3, h4, -⟩ := ha
    exact ⟨h1.identifier hf, isName_map hn h2, (iha h3).chain (ihb h4)⟩
  | primary _ ih => exact ih ha
  | group _ _ _ _ iha ihb =>
    simp only [List.forall_mem_cons, List.forall_mem_append] at ha
    exact (iha ha.2.1).chain (ihb ha.2.2.1)
  | moreSteps _ _ _ iha ihb =>
    simp only [List.forall_mem_cons, List.forall_mem_append] at ha
    exact List.forall_mem_cons.2 ⟨iha ha.2.1, ihb ha.2.2⟩
  | noArm => exact ⟨List.forall_mem_nil _, List.forall_mem_nil _, rfl⟩
  | moreArms _ _ _ iha ihb ihd =>
    simp only [List.forall_mem_append] at ha
    obtain ⟨h1, h2, hlength⟩ := ihd ha.2.2
    exact ⟨List.forall_mem_cons.2 ⟨iha ha.1, h1⟩, List.forall_mem_cons.2 ⟨ihb ha.2.1, h2⟩,
      congrArg Nat.succ hlength⟩
  | letIn _ _ hn _ _ _ _ hlength _ iha ihb =>
    simp only [List.forall_mem_cons, List.forall_mem_append] at ha
    obtain ⟨-, -, h1, -, -, h2, -, h3⟩ := ha
    exact .letIn (isName_map hn h1) (iha h2) (by rwa [List.length_map]) (ihb h3)
  | select _ _ _ hsome _ iha =>
    simp only [List.forall_mem_cons, List.forall_mem_append] at ha
    obtain ⟨h1, h2, hlength⟩ := iha ha.2.2.1
    exact .select h1 h2 hlength hsome
  | concat _ _ _ _ iha =>
    simp only [List.forall_mem_cons, List.forall_mem_append] at ha
    exact .concat (iha ha.2.2.1)
  | call hf _ _ _ iha =>
    simp only [List.forall_mem_cons, List.forall_mem_append] at ha
    exact .call (ha.1.identifier hf) (iha ha.2.2.1)
  | not _ _ iha => exact .not (iha (List.forall_mem_cons.1 ha).2)
  | increment _ hx | decrement _ hx =>
    simp only [List.forall_mem_cons] at ha
    exact .binary (.variable (ha.2.1.identifier hx)) wellFormed_one
  | assign _ hx _ iha =>
    simp only [List.forall_mem_cons] at ha
    exact .assign (ha.2.1.identifier hx) (iha ha.2.2)
  | loop _ _ _ iha ihb =>
    simp only [List.forall_mem_cons, List.forall_mem_append] at ha
    exact .loop (iha ha.2.1) (ihb ha.2.2)
  | binary _ _ _ iha ihb =>
    simp only [List.forall_mem_cons, List.forall_mem_append] at ha
    exact .binary (iha ha.2.1) (ihb ha.2.2)
  | string ht => exact .string ((ha _ List.mem_cons_self).string ht)
  | number ht hread hfinite =>
    obtain ⟨text, w, f, htext, hnumeral⟩ := (ha _ List.mem_cons_self).number ht
    rw [htext, Number.read?_numeral hnumeral] at hread
    cases hread
    exact .number hfinite (Number.toBits_ofDecimal_lt _ _)
  | «variable» ht => exact .variable ((ha _ List.mem_cons_self).identifier ht)

theorem Token.Legal.proper {t : Token} (h : t.Legal) : t.Proper := by
  have hsymbols : ∀ k ∈ Kind.symbols, k ≠ .identifier ∧ k ≠ .string ∧ k ≠ .number := by decide
  cases h with
  | @symbol kind _ hk =>
    obtain ⟨h1, h2, h3⟩ := hsymbols kind hk
    exact ⟨fun h => absurd h h1, fun h => absurd h h2, fun h => absurd h h3⟩
  | identifier hn => exact ⟨fun _ => hn, nofun, nofun⟩
  | number hn => exact ⟨nofun, nofun, fun _ => ⟨_, _, _, rfl, hn⟩⟩
  | string hc => exact ⟨nofun, fun _ => hc, nofun⟩

theorem proper_token (s : Cursor) : s.token.1.Proper := by
  by_cases heof : s.token.1.kind = .eof
  · constructor <;> simp [heof]
  by_cases hlegal : s.token.1.kind = .illegal
  · constructor <;> simp [hlegal]
  exact (legal_token heof hlegal).proper

theorem proper_tokens (s : Cursor) : ∀ t ∈ s.tokens, t.Proper := by
  fun_induction Cursor.tokens s with
  | case1 s h =>
    intro t ht
    rw [List.mem_singleton.1 ht]
    exact proper_token s
  | case2 s h ih => exact List.forall_mem_cons.2 ⟨proper_token s, ih⟩

theorem ok_of_mapError {ε ε' α : Type} {x : Except ε α} {f : ε → ε'} {a : α}
    (h : x.mapError f = .ok a) : x = .ok a := by
  cases x with
  | error e => cases h
  | ok b =>
    cases h
    rfl

theorem parse_eq_ok {source : String} {p : Program} (h : parse source = .ok p) :
    Program.ofTokens (Cursor.ofSource source).tokens = .ok p := by
  obtain ⟨ts, hts, h⟩ := Except.bind_eq_ok.1 h
  rw [← (tokenize_eq_ok_iff.1 (ok_of_mapError hts)).1]
  exact ok_of_mapError h

/-- Every program that is read from a text is well formed. -/
theorem wellFormed_of_parse {source : String} {p : Program} (h : parse source = .ok p) :
    p.WellFormed :=
  wellFormed_of_derives (Program.derives_takeWhile (parse_eq_ok h)) fun t ht =>
    proper_tokens _ t ((List.takeWhile_sublist _).mem ht)

end Sigil
