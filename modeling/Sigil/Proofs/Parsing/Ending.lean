import Sigil.Pipeline
import Sigil.Proofs.Parsing.Completeness
import Sigil.Proofs.Tokens.Tiling

/-!
The end of input is where reading ends. On token lists that agree up to their first end of input every
reader does the same, and an error is at a token up to there, so that it has a position.
-/
namespace Sigil

def throughEof (ts : List Token) : List Token :=
  ts.takeWhile (·.kind ≠ .eof) ++ (ts.dropWhile (·.kind ≠ .eof)).take 1

variable {S : Token → Prop} {α β γ δ : Type} {t : Token} {ts us : List Token}

inductive Agree (S : Token → Prop) : List Token → List Token → Prop
  | ended {t : Token} {ts us : List Token} (ht : t.kind = .eof) (hs : S t) :
      Agree S (t :: ts) (t :: us)
  | cons {t : Token} {ts us : List Token} (hs : S t) (h : Agree S ts us) : Agree S (t :: ts) (t :: us)

theorem Agree.head (h : Agree S ts us) : ∃ t, ts.head? = some t ∧ us.head? = some t ∧ S t := by
  cases h with
  | ended _ hs => exact ⟨_, rfl, rfl, hs⟩
  | cons hs _ => exact ⟨_, rfl, rfl, hs⟩

theorem Agree.head?_eq (h : Agree S ts us) : us.head? = ts.head? := by
  obtain ⟨t, hts, hus, -⟩ := h.head
  rw [hts, hus]

theorem Agree.startsWith_eq (h : Agree S ts us) (kind : Kind) :
    Parser.startsWith kind us = Parser.startsWith kind ts :=
  congrArg (Option.any fun t : Token => t.kind = kind) h.head?_eq

theorem agree_throughEof (hts : ∃ t ∈ ts, t.kind = .eof) (hS : ∀ t ∈ throughEof ts, S t) :
    Agree S ts (throughEof ts) := by
  induction ts with
  | nil => exact absurd hts (by simp)
  | cons t ts ih =>
    by_cases ht : t.kind = .eof
    · have hcut : throughEof (t :: ts) = [t] := by simp [throughEof, ht]
      rw [hcut] at hS ⊢
      exact .ended ht (hS t List.mem_cons_self)
    · have hcut : throughEof (t :: ts) = t :: throughEof ts := by simp [throughEof, ht]
      rw [hcut, List.forall_mem_cons] at hS
      rw [hcut]
      have hrest : ∃ u ∈ ts, u.kind = .eof := by simpa [ht] using hts
      exact .cons hS.1 (ih hrest hS.2)

inductive Parsed.Agree (S : Token → Prop) {n k : Nat} : Parsed α n → Parsed α k → Prop
  | mk {value : α} {ts us : List Token} {hts : ts.length < n} {hus : us.length < k}
      (h : Sigil.Agree S ts us) : Parsed.Agree S ⟨value, ts, hts⟩ ⟨value, us, hus⟩

namespace Parser

inductive Concurs (S : Token → Prop) (R : α → β → Prop) : Reading α → Reading β → Prop
  | ok {a : α} {b : β} (h : R a b) : Concurs S R (.ok a) (.ok b)
  | error {e : SyntaxError} {t : Token} (ht : e.token = some t) (hs : S t) :
      Concurs S R (.error e) (.error e)

variable {R : α → β → Prop} {Q : γ → δ → Prop} {path : Path}

theorem Concurs.bind {x : Reading α} {y : Reading β} {f : α → Reading γ} {g : β → Reading δ}
    (hx : Concurs S R x y) (hf : ∀ a b, R a b → Concurs S Q (f a) (g b)) :
    Concurs S Q (x >>= f) (y >>= g) := by
  cases hx with
  | ok h => exact hf _ _ h
  | error ht hs => exact .error ht hs

theorem Concurs.ite {c : Prop} [Decidable c] {x x' : Reading α} {y y' : Reading β}
    (h : c → Concurs S R x y) (h' : ¬ c → Concurs S R x' y') :
    Concurs S R (if c then x else x') (if c then y else y') := by
  split
  case isTrue hc => exact h hc
  case isFalse hc => exact h' hc

/-- A reading that always finds its form. -/
theorem Concurs.widen {n k n' k' : Nat} {x : Reading (Parsed α n)} {y : Reading (Parsed α k)}
    (h : Concurs S (Parsed.Agree S) x y) {hn : ∀ p : Parsed α n, p.rest.length < n'}
    {hk : ∀ p : Parsed α k, p.rest.length < k'} :
    Concurs S (Option.Rel (Parsed.Agree S)) (x >>= fun p => pure (some ⟨p.value, p.rest, hn p⟩))
      (y >>= fun p => pure (some ⟨p.value, p.rest, hk p⟩)) := by
  refine h.bind ?_
  rintro _ _ ⟨hrest⟩
  exact .ok (.some ⟨hrest⟩)

theorem concurs_fail (h : Agree S ts us) (path : Path) (cause : SyntaxCause) :
    Concurs S R (fail path cause ts) (fail path cause us) := by
  obtain ⟨t, hts, hus, hs⟩ := h.head
  unfold fail
  rw [hts, hus]
  exact .error rfl hs

theorem concurs_next (h : Agree S ts us) (path : Path) :
    Concurs S (Parsed.Agree S) (next path ts) (next path us) := by
  cases h with
  | @ended t ts us ht hs =>
    simp only [next, ht, if_true]
    exact .error rfl hs
  | @cons t ts us hs h =>
    simp only [next]
    exact .ite (fun _ => .error rfl hs) fun _ => .ok ⟨h⟩

theorem concurs_expect (h : Agree S ts us) (path : Path) (kind : Kind) :
    Concurs S (Parsed.Agree S) (expect path kind ts) (expect path kind us) := by
  refine (concurs_next h path).bind ?_
  rintro _ _ ⟨hrest⟩
  exact .ite (fun _ => .ok ⟨hrest⟩) fun _ => concurs_fail h _ _

theorem concurs_name (h : Agree S ts us) (path : Path) (place : NamePlace) :
    Concurs S (Parsed.Agree S) (name path place ts) (name path place us) := by
  refine (concurs_next h path).bind ?_
  rintro _ _ ⟨hrest⟩
  exact .ite (fun _ => .ok ⟨hrest⟩) fun _ => concurs_fail h _ _

theorem concurs_parameters {ts us : List Token} (h : Agree S ts us) (path : Path) :
    Concurs S (Parsed.Agree S) (parameters path ts) (parameters path us) := by
  rw [parameters, parameters]
  refine (concurs_next h path).bind ?_
  rintro _ _ ⟨hrest⟩
  refine .ite (fun _ => (concurs_parameters hrest path).bind ?_) fun _ => ?_
  · rintro _ _ ⟨hrest⟩
    exact .ok ⟨hrest⟩
  · exact .ite (fun _ => .ok ⟨hrest⟩) fun _ => concurs_fail h _ _
termination_by ts.length

theorem concurs_increment (h : Agree S ts us) (path : Path) (a : Arithmetic) :
    Concurs S (Parsed.Agree S) (increment path a ts) (increment path a us) := by
  refine (concurs_name h path .increment).bind ?_
  rintro _ _ ⟨hrest⟩
  exact .ok ⟨hrest⟩

def Concurring (S : Token → Prop) (n : Nat) : Prop :=
  ∀ ts us : List Token, ts.length < n → Agree S ts us → ∀ path,
    Concurs S (Option.Rel (Parsed.Agree S)) (expression path ts) (expression path us)

namespace Concurring

variable {n : Nat}

theorem required (hn : Concurring S n) (hts : ts.length < n) (h : Agree S ts us) (path : Path)
    (place : ExprPlace) :
    Concurs S (Parsed.Agree S) (required path place ts) (required path place us) := by
  rw [Parser.required, Parser.required]
  refine (hn ts us hts h path).bind ?_
  rintro _ _ (⟨hrest⟩ | _)
  · exact .ok hrest
  · exact concurs_fail h _ _

theorem expressions (hn : Concurring S n) {ts us : List Token} (hts : ts.length < n)
    (h : Agree S ts us) (path : Path) :
    Concurs S (Parsed.Agree S) (expressions path ts) (expressions path us) := by
  rw [Parser.expressions, Parser.expressions]
  refine (hn ts us hts h path).bind ?_
  rintro _ _ (⟨⟨hrest⟩⟩ | _)
  · refine (expressions hn (by omega) hrest path).bind ?_
    rintro _ _ ⟨hrest⟩
    exact .ok ⟨hrest⟩
  · exact .ok ⟨h⟩
termination_by ts.length

theorem arms (hn : Concurring S n) {ts us : List Token} (hts : ts.length < n)
    (h : Agree S ts us) (path : Path) :
    Concurs S (Parsed.Agree S) (arms path ts) (arms path us) := by
  rw [Parser.arms, Parser.arms]
  refine (hn ts us hts h path).bind ?_
  rintro _ _ (⟨⟨hrest⟩⟩ | _)
  · refine (hn _ _ (by omega) hrest path).bind ?_
    rintro _ _ (⟨⟨hrest⟩⟩ | _)
    · refine (arms hn (by omega) hrest path).bind ?_
      rintro _ _ ⟨hrest⟩
      exact .ok ⟨hrest⟩
    · exact concurs_fail hrest _ _
  · exact .ok ⟨h⟩
termination_by ts.length

theorem closeGroup (hn : Concurring S n) {ts us : List Token} (hts : ts.length ≤ n)
    (h : Agree S ts us) (path : Path) (left : Expr) :
    Concurs S (Parsed.Agree S) (closeGroup path left ts) (closeGroup path left us) := by
  rw [Parser.closeGroup, Parser.closeGroup, h.head?_eq]
  split
  · refine (concurs_next h path).bind ?_
    rintro _ _ ⟨hrest⟩
    refine (hn.required (by omega) hrest path .infixOperand).bind ?_
    rintro _ _ ⟨hrest⟩
    refine (closeGroup hn (by omega) hrest path _).bind ?_
    rintro _ _ ⟨hrest⟩
    exact .ok ⟨hrest⟩
  · refine (concurs_expect h path .rightParen).bind ?_
    rintro _ _ ⟨hrest⟩
    exact .ok ⟨hrest⟩
termination_by ts.length

theorem letIn (hn : Concurring S n) (hts : ts.length < n) (h : Agree S ts us) (path : Path) :
    Concurs S (Parsed.Agree S) (letIn path ts) (letIn path us) := by
  rw [Parser.letIn, Parser.letIn]
  refine (concurs_expect h path .leftParen).bind ?_
  rintro _ _ ⟨hnames⟩
  refine (concurs_parameters hnames path).bind ?_
  rintro _ _ ⟨hparen⟩
  refine (concurs_expect hparen path .leftParen).bind ?_
  rintro _ _ ⟨hvalues⟩
  refine (hn.expressions (by omega) hvalues path).bind ?_
  rintro _ _ ⟨hclose⟩
  refine .ite (fun _ => concurs_fail hclose _ _) fun _ => ?_
  refine (concurs_expect hclose path .rightParen).bind ?_
  rintro _ _ ⟨hbody⟩
  refine (hn.required (by omega) hbody path .letBody).bind ?_
  rintro _ _ ⟨hrest⟩
  exact .ok ⟨hrest⟩

theorem assign (hn : Concurring S n) (hts : ts.length < n) (h : Agree S ts us) (path : Path) :
    Concurs S (Parsed.Agree S) (assign path ts) (assign path us) := by
  rw [Parser.assign, Parser.assign]
  refine (concurs_name h path .assign).bind ?_
  rintro _ _ ⟨hvalue⟩
  refine (hn.required (by omega) hvalue path .assignedValue).bind ?_
  rintro _ _ ⟨hrest⟩
  exact .ok ⟨hrest⟩

theorem select (hn : Concurring S n) (hts : ts.length < n) (h : Agree S ts us) (path : Path)
    (mode : Mode) : Concurs S (Parsed.Agree S) (select path mode ts) (select path mode us) := by
  rw [Parser.select, Parser.select]
  refine (concurs_expect h path .leftParen).bind ?_
  rintro _ _ ⟨harms⟩
  refine (hn.arms (by omega) harms path).bind ?_
  rintro _ _ ⟨hclose⟩
  refine .ite (fun _ => concurs_fail hclose _ _) fun _ => ?_
  refine (concurs_expect hclose path .rightParen).bind ?_
  rintro _ _ ⟨hrest⟩
  exact .ok ⟨hrest⟩

theorem call (hn : Concurring S n) (hts : ts.length < n) (h : Agree S ts us) (path : Path)
    (f : String) : Concurs S (Parsed.Agree S) (call path f ts) (call path f us) := by
  rw [Parser.call, Parser.call]
  refine (concurs_expect h path .leftBrace).bind ?_
  rintro _ _ ⟨harguments⟩
  refine (hn.expressions (by omega) harguments path).bind ?_
  rintro _ _ ⟨hclose⟩
  refine (concurs_expect hclose path .rightBrace).bind ?_
  rintro _ _ ⟨hrest⟩
  exact .ok ⟨hrest⟩

theorem concat (hn : Concurring S n) (hts : ts.length < n) (h : Agree S ts us) (path : Path) :
    Concurs S (Parsed.Agree S) (concat path ts) (concat path us) := by
  rw [Parser.concat, Parser.concat]
  refine (concurs_expect h path .leftParen).bind ?_
  rintro _ _ ⟨hparts⟩
  refine (hn.expressions (by omega) hparts path).bind ?_
  rintro _ _ ⟨hclose⟩
  refine (concurs_expect hclose path .rightParen).bind ?_
  rintro _ _ ⟨hrest⟩
  exact .ok ⟨hrest⟩

theorem form (hn : Concurring S n) (hts : ts.length ≤ n) (h : Agree S ts us) (path : Path) :
    Concurs S (Option.Rel (Parsed.Agree S)) (form path ts) (form path us) := by
  rw [Parser.form, Parser.form]
  refine (concurs_next h _).bind ?_
  rintro _ _ ⟨hrest⟩
  dsimp only
  -- One case for each kind that the match names, and the last one for the operators.
  split
  case h_1 =>
    rw [hrest.startsWith_eq]
    refine (concurs_next hrest _).bind fun _ _ _ => ?_
    exact .ite (fun _ => (hn.letIn (by omega) hrest _).widen) fun _ =>
      (hn.assign (by omega) hrest _).widen
  case h_2 => exact (hn.select (by omega) hrest _ _).widen
  case h_3 => exact (hn.select (by omega) hrest _ _).widen
  case h_4 => exact (hn.concat (by omega) hrest _).widen
  case h_5 =>
    refine (hn.required (by omega) hrest _ _).bind ?_
    rintro _ _ ⟨hrest⟩
    exact .ok (.some ⟨hrest⟩)
  case h_6 => exact (concurs_increment hrest _ _).widen
  case h_7 => exact (concurs_increment hrest _ _).widen
  case h_8 =>
    refine (hn.required (by omega) hrest _ _).bind ?_
    rintro _ _ ⟨hbody⟩
    refine (hn.required (by omega) hbody _ _).bind ?_
    rintro _ _ ⟨hrest⟩
    exact .ok (.some ⟨hrest⟩)
  case h_9 =>
    rw [hrest.startsWith_eq]
    exact .ite (fun _ => (hn.call (by omega) hrest _ _).widen) fun _ => .ok (.some ⟨hrest⟩)
  case h_10 => exact .ok (.some ⟨hrest⟩)
  case h_11 =>
    split
    · exact .ok (.some ⟨hrest⟩)
    · exact concurs_fail h _ _
  case h_12 =>
    split
    · refine (hn.required (by omega) hrest _ _).bind ?_
      rintro _ _ ⟨hright⟩
      refine (hn.required (by omega) hright _ _).bind ?_
      rintro _ _ ⟨hrest⟩
      exact .ok (.some ⟨hrest⟩)
    · exact .ok .none

theorem expression (hn : Concurring S n) (hts : ts.length ≤ n) (h : Agree S ts us) (path : Path) :
    Concurs S (Option.Rel (Parsed.Agree S)) (expression path ts) (expression path us) := by
  rw [Parser.expression, Parser.expression]
  refine (concurs_next h _).bind ?_
  rintro _ _ ⟨hinner⟩
  dsimp only
  rw [hinner.startsWith_eq]
  refine .ite (fun _ => .ite (fun _ => ?_) fun _ => ?_) fun _ => hn.form hts h _
  · refine (hn _ _ (by omega) hinner _).bind ?_
    rintro _ _ (⟨⟨hrest⟩⟩ | _)
    · exact (hn.closeGroup (by omega) hrest _ _).widen
    · exact .ok .none
  · refine (hn.form (by omega) hinner _).bind ?_
    rintro _ _ (⟨⟨hrest⟩⟩ | _)
    · exact (hn.closeGroup (by omega) hrest _ _).widen
    · exact .ok .none

end Concurring

theorem concurring (S : Token → Prop) (n : Nat) : Concurring S n := by
  induction n with
  | zero => exact fun _ _ hts => absurd hts (Nat.not_lt_zero _)
  | succ n ih => exact fun _ _ hts h path => ih.expression (Nat.le_of_lt_succ hts) h path

theorem concurs_required (h : Agree S ts us) (path : Path) (place : ExprPlace) :
    Concurs S (Parsed.Agree S) (required path place ts) (required path place us) :=
  (concurring S _).required (Nat.lt_succ_self _) h path place

theorem concurs_function (h : Agree S ts us) (path : Path) :
    Concurs S (Parsed.Agree S) (function path ts) (function path us) := by
  refine (concurs_name h path .function).bind ?_
  rintro _ _ ⟨hparen⟩
  refine (concurs_expect hparen path .leftParen).bind ?_
  rintro _ _ ⟨hnames⟩
  refine (concurs_parameters hnames path).bind ?_
  rintro _ _ ⟨hopen⟩
  refine (concurs_expect hopen path .leftParen).bind ?_
  rintro _ _ ⟨hbody⟩
  refine (concurs_required hbody path .functionBody).bind ?_
  rintro _ _ ⟨hclose⟩
  refine ((concurring S _).closeGroup (Nat.le_refl _) hclose path _).bind ?_
  rintro _ _ ⟨hrest⟩
  exact .ok ⟨hrest⟩

theorem concurs_functions {ts us : List Token} (h : Agree S ts us) (path : Path) :
    Concurs S (Parsed.Agree S) (functions path ts) (functions path us) := by
  rw [functions, functions]
  refine (concurs_next h _).bind ?_
  rintro _ _ ⟨hname⟩
  refine .ite (fun _ => ?_) fun _ => .ok ⟨h⟩
  refine (concurs_function hname _).bind ?_
  rintro _ _ ⟨hmore⟩
  refine (concurs_functions hmore path).bind ?_
  rintro _ _ ⟨hrest⟩
  exact .ok ⟨hrest⟩
termination_by ts.length

theorem concurs_ofTokens (h : Agree S ts us) :
    Concurs S Eq (Program.ofTokens ts) (Program.ofTokens us) := by
  refine (concurs_functions h _).bind ?_
  rintro _ _ ⟨hbody⟩
  refine (concurs_required hbody _ _).bind ?_
  rintro _ _ ⟨hrest⟩
  dsimp only
  rw [hrest.head?_eq]
  exact .ite (fun _ => concurs_fail hrest _ _) fun _ => .ok rfl

theorem Concurs.eq {x y : Reading α} (h : Concurs S Eq x y) : x = y := by
  cases h with
  | ok h => rw [h]
  | error _ _ => rfl

theorem Concurs.token {x : Reading α} {y : Reading β} {e : SyntaxError} (h : Concurs S R x y)
    (hx : x = .error e) : ∃ t, S t ∧ e.token = some t := by
  cases h with
  | ok _ => cases hx
  | error ht hs =>
    cases hx
    exact ⟨_, hs, ht⟩

end Parser

theorem Cursor.exists_eof (s : Cursor) : ∃ t ∈ s.tokens, t.kind = .eof := by
  fun_induction Cursor.tokens s with
  | case1 s h => exact ⟨_, List.mem_cons_self, h⟩
  | case2 s _ ih =>
    obtain ⟨t, ht, heof⟩ := ih
    exact ⟨t, List.mem_cons_of_mem _ ht, heof⟩

/-- A syntax error in a source text is one of its tokens. -/
theorem ofTokens_of_parse {source : String} {e : SyntaxError}
    (h : parse source = .error (.grammar e)) :
    Program.ofTokens (Cursor.ofSource source).tokens = .error e := by
  unfold parse readTokens at h
  cases hts : tokenize source with
  | error _ =>
    rw [hts] at h
    cases h
  | ok ts =>
    rw [← (tokenize_eq_ok_iff.1 hts).1]
    rw [hts] at h
    cases hread : Program.ofTokens ts with
    | ok p =>
      have hok : (Program.ofTokens ts).mapError Failure.grammar = .error (.grammar e) := h
      rw [hread] at hok
      cases hok
    | error e' =>
      have herror : (Program.ofTokens ts).mapError Failure.grammar = .error (.grammar e) := h
      rw [hread] at herror
      cases herror
      rfl

/-- Tokens behind the first end of input have no part in the reading of a program, neither in its tree
nor in its error, and an error is at one of the tokens before. So every error in a source text has a
position. -/
theorem Program.ends_at_eof :
    (∀ ts, (∃ t ∈ ts, t.kind = .eof) → Program.ofTokens ts = Program.ofTokens (throughEof ts) ∧
        ∀ e, Program.ofTokens ts = .error e → ∃ t ∈ throughEof ts, e.token = some t) ∧
      ∀ source e, parse source = .error (.grammar e) → ∃ position, e.position = some position := by
  have hends : ∀ ts, (∃ t ∈ ts, t.kind = .eof) → Parser.Concurs (· ∈ throughEof ts) Eq
      (Program.ofTokens ts) (Program.ofTokens (throughEof ts)) :=
    fun ts hts => Parser.concurs_ofTokens (agree_throughEof hts fun _ ht => ht)
  refine ⟨fun ts hts => ⟨(hends ts hts).eq, fun e => (hends ts hts).token⟩, fun source e h => ?_⟩
  obtain ⟨t, -, ht⟩ :=
    (hends _ (Cursor.ofSource source).exists_eof).token (ofTokens_of_parse h)
  exact ⟨t.position, congrArg (Option.map Token.position) ht⟩

def sumTokens : List Token :=
  [⟨.plus, "+", ⟨1, 1⟩⟩, ⟨.identifier, "x", ⟨1, 3⟩⟩, ⟨.eof, "", ⟨1, 4⟩⟩]

def missingOperand : SyntaxError :=
  ⟨.prematureEnd, [.expression, .binary, .expression, .program], some ⟨.eof, "", ⟨1, 4⟩⟩⟩

theorem parse_sum : parse "+ x" = .error (.grammar missingOperand) := by
  with_unfolding_all rfl

/-- An operand behind the end of input is not found, and does not change where the error is. -/
theorem ends_sum :
    Program.ofTokens (sumTokens ++ sumTokens.tail) = Program.ofTokens sumTokens ∧
      (∃ t ∈ sumTokens, missingOperand.token = some t) ∧
      parse "+ x" = .error (.grammar missingOperand) ∧
      ∃ position, missingOperand.position = some position := by
  obtain ⟨hends, hposition⟩ := Program.ends_at_eof
  have hcut : throughEof (sumTokens ++ sumTokens.tail) = sumTokens := by decide
  have hread : Program.ofTokens (sumTokens ++ sumTokens.tail) = .error missingOperand := by
    with_unfolding_all rfl
  have heof : ∃ t ∈ sumTokens ++ sumTokens.tail, t.kind = .eof := by decide
  obtain ⟨hsame, herror⟩ := hends _ heof
  rw [hcut] at hsame herror
  exact ⟨hsame, herror _ hread, parse_sum, hposition _ _ parse_sum⟩

end Sigil
