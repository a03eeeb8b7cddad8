import Sigil.Expr.Parser

/-! The grammar of programs: which token lists a phrase can be written as, and its tree. -/
namespace Sigil

def Expr.chain (first : Expr) (steps : List (Operator × Expr)) : Expr :=
  steps.foldl (fun left step => .binary step.1 left step.2) first

def Mode.kind : Mode → Kind
  | all => .matchAll
  | first => .matchFirst

/-- What a stretch of tokens is read as. A primary is an expression that no parenthesis opens, a
tail the infix operators of a group with their right operands. -/
inductive Phrase where
  | program (p : Program)
  | functions (fs : List Function)
  | function (f : Function)
  | expression (e : Expr)
  | primary (e : Expr)
  | expressions (es : List Expr)
  | arms (conditions branches : List Expr)
  | tail (steps : List (Operator × Expr))

open Phrase in
/-- The productions of the grammar. A token counts by its kind, and by its lexeme where the tree
keeps it. -/
inductive Derives : Phrase → List Token → Prop
  | program {fs : List Function} {body : Expr} {a b : List Token}
      (hf : Derives (functions fs) a) (hb : Derives (expression body) b) :
      Derives (program ⟨fs, body⟩) (a ++ b)
  | noFunction : Derives (functions []) []
  | moreFunctions {f : Function} {fs : List Function} {a b : List Token}
      (hf : Derives (function f) a) (hfs : Derives (functions fs) b) :
      Derives (functions (f :: fs)) (a ++ b)
  | function {s f p q r u : Token} {names : List Token} {first : Expr}
      {steps : List (Operator × Expr)} {a b : List Token}
      (hs : s.kind = .function) (hf : f.kind = .identifier) (hp : p.kind = .leftParen)
      (hn : ∀ x ∈ names, x.kind = .identifier) (hq : q.kind = .rightParen)
      (hr : r.kind = .leftParen) (ha : Derives (expression first) a) (hb : Derives (tail steps) b)
      (hu : u.kind = .rightParen) :
      Derives (function ⟨f.lexeme, names.map Token.lexeme, first.chain steps⟩)
        (s :: f :: p :: (names ++ q :: r :: (a ++ (b ++ [u]))))
  | primary {e : Expr} {a : List Token} (h : Derives (primary e) a) : Derives (expression e) a
  | group {p q : Token} {first : Expr} {steps : List (Operator × Expr)} {a b : List Token}
      (hp : p.kind = .leftParen) (ha : Derives (expression first) a) (hb : Derives (tail steps) b)
      (hq : q.kind = .rightParen) : Derives (expression (first.chain steps)) (p :: (a ++ (b ++ [q])))
  | noStep : Derives (tail []) []
  | moreSteps {t : Token} {op : Operator} {e : Expr} {steps : List (Operator × Expr)}
      {a b : List Token} (ht : t.kind = op.kind) (ha : Derives (expression e) a)
      (hb : Derives (tail steps) b) : Derives (tail ((op, e) :: steps)) (t :: (a ++ b))
  | noExpression : Derives (expressions []) []
  | moreExpressions {e : Expr} {es : List Expr} {a b : List Token}
      (ha : Derives (expression e) a) (hb : Derives (expressions es) b) :
      Derives (expressions (e :: es)) (a ++ b)
  | noArm : Derives (arms [] []) []
  | moreArms {c e : Expr} {cs es : List Expr} {a b d : List Token}
      (ha : Derives (expression c) a) (hb : Derives (expression e) b) (hd : Derives (arms cs es) d) :
      Derives (arms (c :: cs) (e :: es)) (a ++ (b ++ d))
  | letIn {s p q r u : Token} {names : List Token} {values : List Expr} {body : Expr}
      {a b : List Token} (hs : s.kind = .assign) (hp : p.kind = .leftParen)
      (hn : ∀ x ∈ names, x.kind = .identifier) (hq : q.kind = .rightParen)
      (hr : r.kind = .leftParen) (ha : Derives (expressions values) a) (hu : u.kind = .rightParen)
      (hlength : names.length = values.length) (hb : Derives (expression body) b) :
      Derives (primary (.letIn (names.map Token.lexeme) values body))
        (s :: p :: (names ++ q :: r :: (a ++ u :: b)))
  | select {mode : Mode} {s p q : Token} {cs es : List Expr} {a : List Token}
      (hs : s.kind = mode.kind) (hp : p.kind = .leftParen) (ha : Derives (arms cs es) a)
      (hsome : cs ≠ []) (hq : q.kind = .rightParen) :
      Derives (primary (.select mode cs es)) (s :: p :: (a ++ [q]))
  | concat {s p q : Token} {parts : List Expr} {a : List Token} (hs : s.kind = .concat)
      (hp : p.kind = .leftParen) (ha : Derives (expressions parts) a) (hq : q.kind = .rightParen) :
      Derives (primary (.concat parts)) (s :: p :: (a ++ [q]))
  | call {f p q : Token} {arguments : List Expr} {a : List Token} (hf : f.kind = .identifier)
      (hp : p.kind = .leftBrace) (ha : Derives (expressions arguments) a)
      (hq : q.kind = .rightBrace) : Derives (primary (.call f.lexeme arguments)) (f :: p :: (a ++ [q]))
  | not {s : Token} {e : Expr} {a : List Token} (hs : s.kind = .not)
      (ha : Derives (expression e) a) : Derives (primary (.not e)) (s :: a)
  | increment {s x : Token} (hs : s.kind = .plusPlus) (hx : x.kind = .identifier) :
      Derives (primary (.binary (.update .add) (.variable x.lexeme) (.literal (.number 1)))) [s, x]
  | decrement {s x : Token} (hs : s.kind = .minusMinus) (hx : x.kind = .identifier) :
      Derives (primary (.binary (.update .subtract) (.variable x.lexeme) (.literal (.number 1))))
        [s, x]
  | assign {s x : Token} {e : Expr} {a : List Token} (hs : s.kind = .assign)
      (hx : x.kind = .identifier) (ha : Derives (expression e) a) :
      Derives (primary (.assign x.lexeme e)) (s :: x :: a)
  | loop {s : Token} {c e : Expr} {a b : List Token} (hs : s.kind = .loop)
      (ha : Derives (expression c) a) (hb : Derives (expression e) b) :
      Derives (primary (.loop c e)) (s :: (a ++ b))
  | binary {s : Token} {op : Operator} {l r : Expr} {a b : List Token} (hs : s.kind = op.kind)
      (ha : Derives (expression l) a) (hb : Derives (expression r) b) :
      Derives (primary (.binary op l r)) (s :: (a ++ b))
  | string {t : Token} (ht : t.kind = .string) :
      Derives (primary (.literal (.string t.lexeme))) [t]
  | number {t : Token} {x : Float} (ht : t.kind = .number) (hx : Number.read? t.lexeme = some x)
      (hfinite : Number.isFinite x) : Derives (primary (.literal (.number x))) [t]
  | variable {t : Token} (ht : t.kind = .identifier) : Derives (primary (.variable t.lexeme)) [t]

def Kind.opens (kind : Kind) : Bool :=
  kind ∈ [.assign, .matchAll, .matchFirst, .concat, .identifier, .not, .plusPlus, .minusMinus,
    .loop, .string, .number] || (Operator.ofKind? kind).isSome

theorem Operator.opens_kind (op : Operator) : op.kind.opens = true := by
  simp [Kind.opens, Operator.ofKind?_kind]

theorem Kind.ne_of_opens {kind other : Kind} (h : kind.opens = true) (hother : other.opens = false) :
    kind ≠ other := by
  rintro rfl
  rw [h] at hother
  cases hother

theorem Operator.kind_ne (op : Operator) : op.kind ≠ .eof ∧ op.kind ≠ .illegal :=
  ⟨Kind.ne_of_opens op.opens_kind rfl, Kind.ne_of_opens op.opens_kind rfl⟩

theorem Mode.kind_ne (mode : Mode) : mode.kind ≠ .eof ∧ mode.kind ≠ .illegal := by
  cases mode <;> decide

theorem Mode.opens_kind (mode : Mode) : mode.kind.opens = true := by
  cases mode <;> rfl

namespace Derives

theorem opens_of_primary {e : Expr} {a : List Token} (h : Derives (.primary e) a) :
    ∃ t b, a = t :: b ∧ t.kind.opens = true := by
  cases h with
  | select hs => exact ⟨_, _, rfl, hs ▸ Mode.opens_kind _⟩
  | binary hs => exact ⟨_, _, rfl, hs ▸ Operator.opens_kind _⟩
  | letIn hs | concat hs | call hs | not hs | increment hs | decrement hs | assign hs | loop hs
  | string hs | number hs | «variable» hs => exact ⟨_, _, rfl, by rw [hs]; rfl⟩

theorem opens_of_expression {e : Expr} {a : List Token} (h : Derives (.expression e) a) :
    ∃ t b, a = t :: b ∧ (t.kind = .leftParen ∨ t.kind.opens = true) := by
  cases h with
  | primary h =>
    obtain ⟨t, b, rfl, ht⟩ := opens_of_primary h
    exact ⟨t, b, rfl, .inr ht⟩
  | group hp => exact ⟨_, _, rfl, .inl hp⟩

/-- The end of input and illegal tokens are no part of a phrase. -/
theorem kind_ne {p : Phrase} {a : List Token} (h : Derives p a) :
    ∀ t ∈ a, t.kind ≠ .eof ∧ t.kind ≠ .illegal := by
  induction h with
  | primary _ ih => exact ih
  | @select mode _ _ _ _ _ _ hs hp _ _ hq iha =>
    simp only [List.forall_mem_cons, List.forall_mem_append]
    exact ⟨hs ▸ mode.kind_ne, by simp [hp], iha, by simp [hq]⟩
  | @moreSteps _ op _ _ _ _ ht _ _ iha ihb | @binary _ op _ _ _ _ ht _ _ iha ihb =>
    simp only [List.forall_mem_cons, List.forall_mem_append]
    exact ⟨ht ▸ op.kind_ne, iha, ihb⟩
  | function hs hf hp hn hq hr _ _ hu iha ihb =>
    simp only [List.forall_mem_cons, List.forall_mem_append]
    exact ⟨by simp [hs], by simp [hf], by simp [hp], fun x hx => by simp [hn x hx], by simp [hq],
      by simp [hr], iha, ihb, by simp [hu]⟩
  | letIn hs hp hn hq hr _ hu _ _ iha ihb =>
    simp only [List.forall_mem_cons, List.forall_mem_append]
    exact ⟨by simp [hs], by simp [hp], fun x hx => by simp [hn x hx], by simp [hq], by simp [hr],
      iha, by simp [hu], ihb⟩
  | _ => simp_all [or_imp]

theorem kind_ne_eof {p : Phrase} {a : List Token} (h : Derives p a) (t : Token) (ht : t ∈ a) :
    t.kind ≠ .eof := (kind_ne h t ht).1

theorem kind_ne_illegal {p : Phrase} {a : List Token} (h : Derives p a) (t : Token) (ht : t ∈ a) :
    t.kind ≠ .illegal := (kind_ne h t ht).2

end Derives
end Sigil
