import Sigil.Proofs.Parsing.Grammar

/-! The parser reads every derived phrase, whatever follows, and returns its tree. -/
namespace Sigil.Parser

variable {α : Type} {path : Path} {n : List Token → Nat} {ts rest : List Token}

def Takes (read : (ts : List Token) → Reading (Parsed α (n ts))) (ts : List Token) (value : α)
    (rest : List Token) : Prop :=
  ∃ h, read ts = .ok ⟨value, rest, h⟩

def Finds (read : (ts : List Token) → Reading (Option (Parsed Expr ts.length))) (ts : List Token)
    (e : Expr) (rest : List Token) : Prop :=
  ∃ h, read ts = .ok (some ⟨e, rest, h⟩)

theorem takes_iff {read : (ts : List Token) → Reading (Parsed α (n ts))} {value : α} :
    Takes read ts value rest ↔ ∃ r, read ts = .ok r ∧ r.value = value ∧ r.rest = rest := by
  constructor
  · exact fun ⟨h, hr⟩ => ⟨_, hr, rfl, rfl⟩
  · rintro ⟨r, hr, rfl, rfl⟩
    exact ⟨r.shorter, hr⟩

theorem finds_iff {read : (ts : List Token) → Reading (Option (Parsed Expr ts.length))} {e : Expr} :
    Finds read ts e rest ↔ ∃ r, read ts = .ok (some r) ∧ r.value = e ∧ r.rest = rest := by
  constructor
  · exact fun ⟨h, hr⟩ => ⟨_, hr, rfl, rfl⟩
  · rintro ⟨r, hr, rfl, rfl⟩
    exact ⟨r.shorter, hr⟩

theorem ok_bind {ε α β : Type} (a : α) (f : α → Except ε β) : (Except.ok a >>= f) = f a := rfl

theorem next_cons {t : Token} (ht : t.kind ≠ .eof) :
    next path (t :: rest) = .ok ⟨t, rest, Nat.lt_succ_self _⟩ := by
  simp only [next, if_neg ht]

theorem expect_cons {t : Token} {kind : Kind} (ht : t.kind = kind) (hk : kind ≠ .eof) :
    expect path kind (t :: rest) = .ok ⟨(), rest, Nat.lt_succ_self _⟩ := by
  simp only [expect, next_cons (ht ▸ hk), ok_bind, if_pos ht]
  rfl

theorem name_cons {t : Token} {place : NamePlace} (ht : t.kind = .identifier) :
    name path place (t :: rest) = .ok ⟨t.lexeme, rest, Nat.lt_succ_self _⟩ := by
  simp only [name, next_cons (show t.kind ≠ .eof by simp [ht]), ok_bind, if_pos ht]
  rfl

theorem takes_parameters (path : Path) {names : List Token} {q : Token}
    (hn : ∀ x ∈ names, x.kind = .identifier)
    (hq : q.kind = .rightParen) :
    Takes (parameters path) (names ++ q :: rest) (names.map Token.lexeme) rest := by
  induction names with
  | nil =>
    rw [List.nil_append, takes_iff, parameters, next_cons (by simp [hq])]
    simp only [ok_bind, hq, reduceCtorEq, if_false, if_true]
    exact ⟨_, rfl, rfl, rfl⟩
  | cons t names ih =>
    obtain ⟨ht, hn⟩ := List.forall_mem_cons.1 hn
    obtain ⟨h, hr⟩ := ih hn
    rw [List.cons_append, takes_iff, parameters, next_cons (by simp [ht])]
    simp only [ok_bind, ht, if_true, hr]
    exact ⟨_, rfl, rfl, rfl⟩

theorem Finds.required {e : Expr} (h : Finds (expression path) ts e rest) (place : ExprPlace) :
    Takes (required path place) ts e rest := by
  obtain ⟨h, hr⟩ := h
  rw [takes_iff, Parser.required, hr]
  exact ⟨_, rfl, rfl, rfl⟩

/-- An expression that no parenthesis opens is read as a form. -/
theorem expression_eq_form {t : Token} (ht : t.kind ≠ .eof) (hp : t.kind ≠ .leftParen) :
    expression path (t :: ts) = form (.expression :: path) (t :: ts) := by
  rw [expression, next_cons ht, ok_bind]
  exact if_neg hp

/-- No expression begins with a closing bracket. -/
theorem expression_closed {t : Token} (ht : t.kind = .rightParen ∨ t.kind = .rightBrace) :
    expression path (t :: ts) = .ok none := by
  cases ht with
  | inl ht =>
    rw [expression_eq_form (by simp [ht]) (by simp [ht]), form, next_cons (by simp [ht]), ok_bind]
    simp only [ht]
    rfl
  | inr ht =>
    rw [expression_eq_form (by simp [ht]) (by simp [ht]), form, next_cons (by simp [ht]), ok_bind]
    simp only [ht]
    rfl

section Forms

variable {s t p q r u x : Token} {names : List Token} {a b : List Token} {values : List Expr}
  {conditions branches : List Expr} {steps : List (Operator × Expr)} {e body left right : Expr}

theorem takes_letIn (hp : p.kind = .leftParen) (hn : ∀ x ∈ names, x.kind = .identifier)
    (hq : q.kind = .rightParen) (hr : r.kind = .leftParen)
    (ha : ∀ path, Takes (expressions path) (a ++ u :: ts) values (u :: ts))
    (hlength : names.length = values.length) (hu : u.kind = .rightParen)
    (hb : ∀ path, Finds (expression path) ts body rest) :
    Takes (letIn path) (p :: (names ++ q :: r :: (a ++ u :: ts)))
      (.letIn (names.map Token.lexeme) values body) rest := by
  obtain ⟨_, h2⟩ : Takes (parameters path) (names ++ q :: r :: (a ++ u :: ts)) _ _ :=
    takes_parameters path hn hq
  obtain ⟨_, h4⟩ := ha path
  obtain ⟨_, h6⟩ := (hb path).required .letBody
  have hlength' : ¬ (names.map Token.lexeme).length ≠ values.length := by
    rw [List.length_map]
    exact not_not_intro hlength
  rw [takes_iff, letIn]
  simp only [expect_cons hp, expect_cons hr, expect_cons hu, h2, h4, h6, ok_bind, if_neg hlength',
    ne_eq, reduceCtorEq, not_false_eq_true]
  exact ⟨_, rfl, rfl, rfl⟩

theorem takes_assign (hx : x.kind = .identifier) (ha : ∀ path, Finds (expression path) ts e rest) :
    Takes (assign path) (x :: ts) (.assign x.lexeme e) rest := by
  obtain ⟨_, h2⟩ := (ha path).required .assignedValue
  rw [takes_iff, assign]
  simp only [name_cons hx, h2, ok_bind]
  exact ⟨_, rfl, rfl, rfl⟩

theorem takes_select {mode : Mode} (hp : p.kind = .leftParen)
    (ha : ∀ path, Takes (arms path) (a ++ q :: rest) (conditions, branches) (q :: rest))
    (hsome : conditions ≠ []) (hq : q.kind = .rightParen) :
    Takes (select path mode) (p :: (a ++ q :: rest)) (.select mode conditions branches) rest := by
  obtain ⟨_, h2⟩ := ha path
  have hsome' : ¬ conditions.isEmpty = true := fun h => hsome (List.isEmpty_iff.1 h)
  rw [takes_iff, select]
  simp only [expect_cons hp, expect_cons hq, h2, ok_bind, if_neg hsome', ne_eq, reduceCtorEq,
    not_false_eq_true]
  exact ⟨_, rfl, rfl, rfl⟩

theorem takes_call {f : String} (hp : p.kind = .leftBrace)
    (ha : ∀ path, Takes (expressions path) (a ++ q :: rest) values (q :: rest))
    (hq : q.kind = .rightBrace) :
    Takes (call path f) (p :: (a ++ q :: rest)) (.call f values) rest := by
  obtain ⟨_, h2⟩ := ha path
  rw [takes_iff, call]
  simp only [expect_cons hp, expect_cons hq, h2, ok_bind, ne_eq, reduceCtorEq, not_false_eq_true]
  exact ⟨_, rfl, rfl, rfl⟩

theorem takes_concat (hp : p.kind = .leftParen)
    (ha : ∀ path, Takes (expressions path) (a ++ q :: rest) values (q :: rest))
    (hq : q.kind = .rightParen) :
    Takes (concat path) (p :: (a ++ q :: rest)) (.concat values) rest := by
  obtain ⟨_, h2⟩ := ha path
  rw [takes_iff, concat]
  simp only [expect_cons hp, expect_cons hq, h2, ok_bind, ne_eq, reduceCtorEq, not_false_eq_true]
  exact ⟨_, rfl, rfl, rfl⟩

theorem finds_letIn (hs : s.kind = .assign) (hp : p.kind = .leftParen)
    (h : ∀ path, Takes (letIn path) (p :: ts) e rest) :
    Finds (form path) (s :: p :: ts) e rest := by
  obtain ⟨_, h⟩ := h (.letIn :: path)
  have hstart : startsWith .leftParen (p :: ts) = true := by simp [startsWith, hp]
  rw [finds_iff, form, next_cons (by simp [hs]), ok_bind]
  simp only [hs, next_cons (show p.kind ≠ .eof by simp [hp]), ok_bind,
    hstart, if_true, h]
  exact ⟨_, rfl, rfl, rfl⟩

theorem finds_assign (hs : s.kind = .assign) (hx : x.kind = .identifier)
    (h : ∀ path, Takes (assign path) (x :: ts) e rest) :
    Finds (form path) (s :: x :: ts) e rest := by
  obtain ⟨_, h⟩ := h (.assign :: .binary :: path)
  have hstart : ¬ startsWith .leftParen (x :: ts) = true := by simp [startsWith, hx]
  rw [finds_iff, form, next_cons (by simp [hs]), ok_bind]
  simp only [hs, next_cons (show x.kind ≠ .eof by simp [hx]), ok_bind,
    if_neg hstart, h]
  exact ⟨_, rfl, rfl, rfl⟩

theorem finds_select {mode : Mode} (hs : s.kind = mode.kind)
    (h : ∀ path, Takes (select path mode) ts e rest) : Finds (form path) (s :: ts) e rest := by
  obtain ⟨_, h⟩ := h (.select :: .unary :: path)
  rw [finds_iff, form, next_cons (hs ▸ mode.kind_ne.1), ok_bind]
  cases mode with
  | all =>
    simp only [hs, Mode.kind, h, ok_bind]
    exact ⟨_, rfl, rfl, rfl⟩
  | first =>
    simp only [hs, Mode.kind, h, ok_bind]
    exact ⟨_, rfl, rfl, rfl⟩

theorem finds_call (hs : s.kind = .identifier) (hp : p.kind = .leftBrace)
    (h : ∀ path, Takes (call path s.lexeme) (p :: ts) e rest) :
    Finds (form path) (s :: p :: ts) e rest := by
  obtain ⟨_, h⟩ := h (.call :: .unary :: path)
  have hstart : startsWith .leftBrace (p :: ts) = true := by simp [startsWith, hp]
  rw [finds_iff, form, next_cons (by simp [hs]), ok_bind]
  simp only [hs, hstart, if_true, h, ok_bind]
  exact ⟨_, rfl, rfl, rfl⟩

theorem finds_variable (hs : s.kind = .identifier) (hrest : startsWith .leftBrace rest = false) :
    Finds (form path) (s :: rest) (.variable s.lexeme) rest := by
  rw [finds_iff, form, next_cons (by simp [hs]), ok_bind]
  simp only [hs, hrest, Bool.false_eq_true, if_false]
  exact ⟨_, rfl, rfl, rfl⟩

theorem finds_string (hs : s.kind = .string) :
    Finds (form path) (s :: rest) (.literal (.string s.lexeme)) rest := by
  rw [finds_iff, form, next_cons (by simp [hs]), ok_bind]
  simp only [hs]
  exact ⟨_, rfl, rfl, rfl⟩

theorem finds_number {v : Float} (hs : s.kind = .number) (hread : Number.read? s.lexeme = some v)
    (hfinite : Number.isFinite v = true) :
    Finds (form path) (s :: rest) (.literal (.number v)) rest := by
  have hv : numeral? s.lexeme = some v := Option.filter_eq_some_iff.2 ⟨hread, hfinite⟩
  rw [finds_iff, form, next_cons (by simp [hs]), ok_bind]
  simp only [hs, hv]
  exact ⟨_, rfl, rfl, rfl⟩

theorem finds_concat (hs : s.kind = .concat) (h : ∀ path, Takes (concat path) ts e rest) :
    Finds (form path) (s :: ts) e rest := by
  obtain ⟨_, h⟩ := h (.concat :: .unary :: path)
  rw [finds_iff, form, next_cons (by simp [hs]), ok_bind]
  simp only [hs, h, ok_bind]
  exact ⟨_, rfl, rfl, rfl⟩

theorem finds_not (hs : s.kind = .not) (h : ∀ path, Finds (expression path) ts e rest) :
    Finds (form path) (s :: ts) (.not e) rest := by
  obtain ⟨_, h⟩ := (h (.not :: .unary :: path)).required .notOperand
  rw [finds_iff, form, next_cons (by simp [hs]), ok_bind]
  simp only [hs, h, ok_bind]
  exact ⟨_, rfl, rfl, rfl⟩

theorem takes_increment (path : Path) (o : Arithmetic) (rest : List Token)
    (hx : x.kind = .identifier) : Takes (increment path o) (x :: rest)
      (.binary (.update o) (.variable x.lexeme) (.literal (.number 1))) rest := by
  rw [takes_iff, increment]
  simp only [name_cons hx, ok_bind]
  exact ⟨_, rfl, rfl, rfl⟩

theorem finds_increment (hs : s.kind = .plusPlus) (hx : x.kind = .identifier) :
    Finds (form path) (s :: x :: rest)
      (.binary (.update .add) (.variable x.lexeme) (.literal (.number 1))) rest := by
  obtain ⟨_, h⟩ := takes_increment (.increment :: .unary :: path) .add rest hx
  rw [finds_iff, form, next_cons (by simp [hs]), ok_bind]
  simp only [hs, h, ok_bind]
  exact ⟨_, rfl, rfl, rfl⟩

theorem finds_decrement (hs : s.kind = .minusMinus) (hx : x.kind = .identifier) :
    Finds (form path) (s :: x :: rest)
      (.binary (.update .subtract) (.variable x.lexeme) (.literal (.number 1))) rest := by
  obtain ⟨_, h⟩ := takes_increment (.increment :: .unary :: path) .subtract rest hx
  rw [finds_iff, form, next_cons (by simp [hs]), ok_bind]
  simp only [hs, h, ok_bind]
  exact ⟨_, rfl, rfl, rfl⟩

theorem finds_loop {us : List Token} (hs : s.kind = .loop)
    (hc : ∀ path, Finds (expression path) ts left us)
    (hb : ∀ path, Finds (expression path) us body rest) :
    Finds (form path) (s :: ts) (.loop left body) rest := by
  obtain ⟨_, h2⟩ := (hc (.loop :: .binary :: path)).required .loopCondition
  obtain ⟨_, h3⟩ := (hb (.loop :: .binary :: path)).required .loopBody
  rw [finds_iff, form, next_cons (by simp [hs]), ok_bind]
  simp only [hs, h2, h3, ok_bind]
  exact ⟨_, rfl, rfl, rfl⟩

theorem finds_binary {us : List Token} {op : Operator} (hs : s.kind = op.kind)
    (hl : ∀ path, Finds (expression path) ts left us)
    (hr : ∀ path, Finds (expression path) us right rest) :
    Finds (form path) (s :: ts) (.binary op left right) rest := by
  obtain ⟨_, h2⟩ := (hl (.binary :: path)).required .leftOperand
  obtain ⟨_, h3⟩ := (hr (.binary :: path)).required .rightOperand
  have hop : Operator.ofKind? op.kind = some op := Operator.ofKind?_kind op
  rw [finds_iff, form, next_cons (hs ▸ op.kind_ne.1), ok_bind]
  rcases op with (_ | _ | _ | _ | _) | (_ | _ | _ | _ | _) | (_ | _ | _ | _) | _ | _ | _ | _
  all_goals
    simp only [Operator.kind] at hs hop
    simp only [hs, hop, h2, h3, ok_bind]
    exact ⟨_, rfl, rfl, rfl⟩

theorem finds_group (hp : p.kind = .leftParen) (ha : Derives (.expression e) a)
    (h : ∀ path, Finds (expression path) (a ++ ts) e ts)
    (hclose : ∀ path, Takes (closeGroup path e) ts body rest) :
    Finds (expression path) (p :: (a ++ ts)) body rest := by
  obtain ⟨t, b, rfl, ht⟩ := ha.opens_of_expression
  obtain ⟨_, h1⟩ := h (.expression :: path)
  obtain ⟨_, h2⟩ := hclose (.expression :: path)
  rw [finds_iff, expression, next_cons (by simp [hp]), ok_bind]
  simp only [hp, if_true]
  by_cases hparen : t.kind = .leftParen
  · have hstart : startsWith .leftParen (t :: b ++ ts) = true := by simp [startsWith, hparen]
    simp only [hstart, if_true, h1, h2, ok_bind]
    exact ⟨_, rfl, rfl, rfl⟩
  · have hstart : ¬ startsWith .leftParen (t :: b ++ ts) = true := by simp [startsWith, hparen]
    have heof : t.kind ≠ .eof := ha.kind_ne_eof t List.mem_cons_self
    have hform : form (.expression :: path) (t :: b ++ ts) = expression path (t :: b ++ ts) :=
      (expression_eq_form heof hparen).symm
    obtain ⟨_, h1⟩ := h path
    simp only [if_neg hstart, hform, h1, h2, ok_bind]
    exact ⟨_, rfl, rfl, rfl⟩

theorem takes_noStep (hq : q.kind = .rightParen) :
    Takes (closeGroup path left) (q :: rest) left rest := by
  have hop : (q :: rest).head?.bind (fun t => Operator.ofKind? t.kind) = none := by
    simp only [List.head?_cons, Option.bind_some, hq]
    rfl
  rw [takes_iff, closeGroup]
  simp only [hop, expect_cons hq, ok_bind, ne_eq, reduceCtorEq, not_false_eq_true]
  exact ⟨_, rfl, rfl, rfl⟩

theorem takes_moreSteps {us : List Token} {op : Operator} (ht : t.kind = op.kind)
    (ha : ∀ path, Finds (expression path) ts right us)
    (hb : ∀ path, Takes (closeGroup path (.binary op left right)) us e rest) :
    Takes (closeGroup path left) (t :: ts) e rest := by
  have hop : (t :: ts).head?.bind (fun t => Operator.ofKind? t.kind) = some op := by
    simp only [List.head?_cons, Option.bind_some, ht, Operator.ofKind?_kind]
  obtain ⟨_, h2⟩ := (ha path).required .infixOperand
  obtain ⟨_, h3⟩ := hb path
  rw [takes_iff, closeGroup]
  simp only [hop, next_cons (ht ▸ op.kind_ne.1), h2, h3, ok_bind]
  exact ⟨_, rfl, rfl, rfl⟩

theorem takes_noExpression (ht : t.kind = .rightParen ∨ t.kind = .rightBrace) :
    Takes (expressions path) (t :: rest) [] (t :: rest) := by
  rw [takes_iff, expressions, expression_closed ht, ok_bind]
  exact ⟨_, rfl, rfl, rfl⟩

theorem takes_moreExpressions {us : List Token} (ha : ∀ path, Finds (expression path) ts e us)
    (hb : ∀ path, Takes (expressions path) us values rest) :
    Takes (expressions path) ts (e :: values) rest := by
  obtain ⟨_, h1⟩ := ha path
  obtain ⟨_, h2⟩ := hb path
  rw [takes_iff, expressions, h1, ok_bind]
  simp only [h2, ok_bind]
  exact ⟨_, rfl, rfl, rfl⟩

theorem takes_noArm (ht : t.kind = .rightParen) :
    Takes (arms path) (t :: rest) ([], []) (t :: rest) := by
  rw [takes_iff, arms, expression_closed (.inl ht), ok_bind]
  exact ⟨_, rfl, rfl, rfl⟩

theorem takes_moreArms {us vs : List Token} (ha : ∀ path, Finds (expression path) ts left us)
    (hb : ∀ path, Finds (expression path) us right vs)
    (hd : ∀ path, Takes (arms path) vs (conditions, branches) rest) :
    Takes (arms path) ts (left :: conditions, right :: branches) rest := by
  obtain ⟨_, h1⟩ := ha path
  obtain ⟨_, h2⟩ := hb path
  obtain ⟨_, h3⟩ := hd path
  rw [takes_iff, arms, h1, ok_bind]
  simp only [h2, h3, ok_bind]
  exact ⟨_, rfl, rfl, rfl⟩

theorem takes_function {f : Token} (hf : f.kind = .identifier) (hp : p.kind = .leftParen)
    (hn : ∀ x ∈ names, x.kind = .identifier) (hq : q.kind = .rightParen) (hr : r.kind = .leftParen)
    {vs : List Token}
    (ha : ∀ path, Finds (expression path) ts e vs)
    (hb : ∀ path, Takes (closeGroup path e) vs body rest) :
    Takes (function path) (f :: p :: (names ++ q :: r :: ts))
      ⟨f.lexeme, names.map Token.lexeme, body⟩ rest := by
  obtain ⟨_, h3⟩ : Takes (parameters path) (names ++ q :: r :: ts) _ _ := takes_parameters path hn hq
  obtain ⟨_, h5⟩ := (ha path).required .functionBody
  obtain ⟨_, h6⟩ := hb path
  rw [takes_iff, function]
  simp only [name_cons hf, expect_cons hp, expect_cons hr, h3, h5, h6, ok_bind, ne_eq, reduceCtorEq,
    not_false_eq_true]
  exact ⟨_, rfl, rfl, rfl⟩

end Forms

theorem startsWith_cons {t : Token} {kind : Kind} (ht : t.kind ≠ kind) :
    startsWith kind (t :: rest) = false := by
  simp [startsWith, ht]

theorem ne_of_begins {t : Token} {kind : Kind} (ht : t.kind = .leftParen ∨ t.kind.opens = true)
    (hk : kind.opens = false) (hp : kind ≠ .leftParen) : t.kind ≠ kind := by
  cases ht with
  | inl ht => exact ht ▸ hp.symm
  | inr ht => exact Kind.ne_of_opens ht hk

/-- No phrase begins with a brace, so that none makes a call of a name before it. -/
theorem startsWith_brace {p : Phrase} {a : List Token} (h : Derives p a)
    (hrest : startsWith .leftBrace rest = false) : startsWith .leftBrace (a ++ rest) = false := by
  induction h generalizing rest with
  | program _ _ iha ihb | moreFunctions _ _ iha ihb | moreExpressions _ _ iha ihb =>
    rw [List.append_assoc]
    exact iha (ihb hrest)
  | moreArms _ _ _ iha ihb ihd =>
    rw [List.append_assoc, List.append_assoc]
    exact iha (ihb (ihd hrest))
  | primary _ ih => exact ih hrest
  | noFunction | noStep | noExpression | noArm => exact hrest
  | @select mode _ _ _ _ _ _ hs => exact startsWith_cons (by cases mode <;> rw [hs] <;> decide)
  | @moreSteps _ op _ _ _ _ hs | @binary _ op _ _ _ _ hs => 
    exact startsWith_cons (Kind.ne_of_opens (hs ▸ op.opens_kind) rfl)
  | function hs | group hs | letIn hs | concat hs | call hs | not hs | increment hs | decrement hs
  | assign hs | loop hs | string hs | number hs | «variable» hs =>
    exact startsWith_cons (by rw [hs]; decide)

theorem startsWith_brace_close {p : Phrase} {a : List Token} (h : Derives p a) {t : Token}
    {kind : Kind} (rest : List Token) (ht : t.kind = kind) (hk : kind ≠ .leftBrace) :
    startsWith .leftBrace (a ++ t :: rest) = false :=
  startsWith_brace h (startsWith_cons (ht ▸ hk))

def Accepts : Phrase → List Token → Prop
  | .program p, a => ∀ rest : List Token, rest.head?.all (·.kind = .eof) →
      Program.ofTokens (a ++ rest) = .ok p
  | .functions fs, a => ∀ path t rest, t.kind ≠ .function → t.kind ≠ .eof →
      Takes (functions path) (a ++ t :: rest) fs (t :: rest)
  | .function f, a => ∃ s b, a = s :: b ∧ s.kind = .function ∧
      ∀ path rest, Takes (function path) (b ++ rest) f rest
  | .expression e, a => ∀ path rest, startsWith .leftBrace rest = false →
      Finds (expression path) (a ++ rest) e rest
  | .primary e, a => ∀ path rest, startsWith .leftBrace rest = false →
      Finds (form path) (a ++ rest) e rest
  | .expressions es, a => ∀ path t rest, t.kind = .rightParen ∨ t.kind = .rightBrace →
      Takes (expressions path) (a ++ t :: rest) es (t :: rest)
  | .arms cs es, a => ∀ path t rest, t.kind = .rightParen →
      Takes (arms path) (a ++ t :: rest) (cs, es) (t :: rest)
  | .tail steps, a => ∀ path left t rest, t.kind = .rightParen →
      Takes (closeGroup path left) (a ++ t :: rest) (left.chain steps) rest

theorem accepts_of_derives {p : Phrase} {a : List Token} (h : Derives p a) : Accepts p a := by
  induction h with
  | program hf hb ihf ihb =>
    intro rest hrest
    obtain ⟨t, b, rfl, ht⟩ := hb.opens_of_expression
    obtain ⟨_, h1⟩ := ihf [.program] t (b ++ rest) (ne_of_begins ht rfl (by decide))
      (ne_of_begins ht rfl (by decide))
    have hbrace : startsWith .leftBrace rest = false := by
      cases rest with
      | nil => rfl
      | cons t rest => exact startsWith_cons (by simp_all)
    obtain ⟨_, h2⟩ : Takes (required [.program] .programBody) (t :: (b ++ rest)) _ rest :=
      (ihb [.program] rest hbrace).required .programBody
    have hend : ¬ rest.head?.any (·.kind ≠ .eof) = true := by
      cases rest with
      | nil => simp
      | cons t rest => simp_all
    rw [List.append_assoc, List.cons_append, Program.ofTokens]
    simp only [h1, ok_bind, h2, if_neg hend]
    rfl
  | noFunction =>
    intro path t rest hf heof
    rw [List.nil_append, takes_iff, functions, next_cons heof, ok_bind]
    simp only [if_neg hf]
    exact ⟨_, rfl, rfl, rfl⟩
  | @moreFunctions f fs _ d _ _ ihf ihfs =>
    intro path t rest hf heof
    obtain ⟨s, b, rfl, hs, ihf⟩ := ihf
    obtain ⟨_, h1⟩ := ihf (.function :: path) (d ++ t :: rest)
    obtain ⟨_, h2⟩ := ihfs path t rest hf heof
    rw [List.append_assoc, List.cons_append, takes_iff, functions, next_cons (by simp [hs]), ok_bind]
    simp only [hs, if_true, h1, h2, ok_bind]
    exact ⟨_, rfl, rfl, rfl⟩
  | function hs hf hp hn hq hr ha hb hu iha ihb =>
    refine ⟨_, _, rfl, hs, fun path rest => ?_⟩
    simp only [List.cons_append, List.append_assoc, List.nil_append]
    exact takes_function hf hp hn hq hr (fun path => iha path _
      (startsWith_brace_close hb rest hu (by decide))) fun path => ihb path _ _ _ hu
  | primary h ih =>
    intro path rest hrest
    obtain ⟨t, b, rfl, ht⟩ := h.opens_of_primary
    rw [finds_iff, List.cons_append, expression_eq_form (Kind.ne_of_opens ht rfl)
      (Kind.ne_of_opens ht rfl)]
    exact finds_iff.1 (ih _ rest hrest)
  | group hp ha hb hq iha ihb =>
    intro path rest hrest
    simp only [List.cons_append, List.append_assoc, List.nil_append]
    have hnext := startsWith_brace_close hb rest hq (by decide)
    exact finds_group hp ha (fun path => iha path _ hnext) fun path => ihb path _ _ _ hq
  | noStep => exact fun path left t rest ht => takes_noStep ht
  | moreSteps ht ha hb iha ihb =>
    intro path left q rest hq
    simp only [List.cons_append, List.append_assoc]
    have hnext := startsWith_brace_close hb rest hq (by decide)
    exact takes_moreSteps ht (fun path => iha path _ hnext) fun path => ihb path _ _ _ hq
  | noExpression => exact fun path t rest ht => takes_noExpression ht
  | moreExpressions ha hb iha ihb =>
    intro path t rest ht
    rw [List.append_assoc]
    have hbrace : t.kind ≠ .leftBrace := by rcases ht with ht | ht <;> simp [ht]
    have hnext := startsWith_brace_close hb rest rfl hbrace
    exact takes_moreExpressions (fun path => iha path _ hnext) fun path => ihb path _ _ ht
  | noArm => exact fun path t rest ht => takes_noArm ht
  | moreArms ha hb hd iha ihb ihd =>
    intro path t rest ht
    simp only [List.append_assoc]
    have hnext := startsWith_brace_close hd rest ht (by decide)
    exact takes_moreArms (fun path => iha path _ (startsWith_brace hb hnext))
      (fun path => ihb path _ hnext) fun path => ihd path _ _ ht
  | letIn hs hp hn hq hr ha hu hlength hb iha ihb =>
    intro path rest hrest
    simp only [List.cons_append, List.append_assoc]
    exact finds_letIn hs hp fun path =>
      takes_letIn hp hn hq hr (fun path => iha path _ _ (.inl hu)) hlength hu fun path =>
        ihb path _ hrest
  | select hs hp ha hsome hq iha =>
    intro path rest hrest
    simp only [List.cons_append, List.append_assoc, List.nil_append]
    exact finds_select hs fun path => takes_select hp (fun path => iha path _ _ hq) hsome hq
  | concat hs hp ha hq iha =>
    intro path rest hrest
    simp only [List.cons_append, List.append_assoc, List.nil_append]
    exact finds_concat hs fun path => takes_concat hp (fun path => iha path _ _ (.inl hq)) hq
  | call hf hp ha hq iha =>
    intro path rest hrest
    simp only [List.cons_append, List.append_assoc, List.nil_append]
    exact finds_call hf hp fun path => takes_call hp (fun path => iha path _ _ (.inr hq)) hq
  | not hs ha iha => exact fun path rest hrest => finds_not hs fun path => iha path _ hrest
  | increment hs hx => exact fun path rest hrest => finds_increment hs hx
  | decrement hs hx => exact fun path rest hrest => finds_decrement hs hx
  | assign hs hx ha iha =>
    exact fun path rest hrest => finds_assign hs hx fun path =>
      takes_assign hx fun path => iha path _ hrest
  | loop hs ha hb iha ihb =>
    intro path rest hrest
    simp only [List.cons_append, List.append_assoc]
    exact finds_loop hs (fun path => iha path _ (startsWith_brace hb hrest)) fun path =>
      ihb path _ hrest
  | binary hs ha hb iha ihb =>
    intro path rest hrest
    simp only [List.cons_append, List.append_assoc]
    exact finds_binary hs (fun path => iha path _ (startsWith_brace hb hrest)) fun path =>
      ihb path _ hrest
  | string ht => exact fun path rest _ => finds_string ht
  | number ht hx hfinite => exact fun path rest _ => finds_number ht hx hfinite
  | «variable» ht => exact fun path rest hrest => finds_variable ht hrest

end Sigil.Parser
