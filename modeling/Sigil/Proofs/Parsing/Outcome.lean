import Sigil.Proofs.Parsing.Completeness
import Sigil.Proofs.Parsing.Soundness

/-!
What the reader of expressions answers: that no expression begins here, an expression, or an error. Which
of them it is depends on the first token behind the opening parentheses, and where this token begins a
form, no list of expressions ends.
-/
namespace Sigil

def Kind.stops (kind : Kind) : Bool :=
  kind ∈ [.rightParen, .leftBrace, .rightBrace, .function, .illegal]

theorem Kind.stops_eq_not_opens {kind : Kind} (heof : kind ≠ .eof) (hparen : kind ≠ .leftParen) :
    kind.stops = !kind.opens := by
  cases kind <;> first | rfl | contradiction

def behindParens (ts : List Token) : List Token := ts.dropWhile (·.kind = .leftParen)

theorem behindParens_cons {p : Token} {ts : List Token} (hp : p.kind = .leftParen) :
    behindParens (p :: ts) = behindParens ts := List.dropWhile_cons_of_pos (decide_eq_true hp)

theorem behindParens_self {t : Token} {ts : List Token} (ht : t.kind ≠ .leftParen) :
    behindParens (t :: ts) = t :: ts := List.dropWhile_cons_of_neg (by simpa using ht)

def Stopped (ts : List Token) : Prop := (behindParens ts).head?.any (·.kind.stops)

def Ended (ts : List Token) : Prop := (behindParens ts).head?.all (·.kind = .eof)

instance : DecidablePred Stopped := fun ts =>
  inferInstanceAs (Decidable ((behindParens ts).head?.any (·.kind.stops) = true))

instance : DecidablePred Ended := fun ts =>
  inferInstanceAs (Decidable ((behindParens ts).head?.all (·.kind = .eof) = true))

theorem Ended.not_stopped {ts : List Token} (h : Ended ts) : ¬ Stopped ts := by
  intro hs
  unfold Ended at h
  unfold Stopped at hs
  cases hhead : (behindParens ts).head? with
  | none =>
    rw [hhead] at hs
    cases hs
  | some t =>
    rw [hhead] at h hs
    have hkind : t.kind = .eof := of_decide_eq_true h
    rw [Option.any_some, hkind] at hs
    cases hs

namespace Parser

variable {α β : Type} {path : Path} {t : Token} {ts rest : List Token}

def Commits (x : Reading (Option α)) : Prop := x ≠ .ok none

theorem commits_error (e : SyntaxError) : Commits (.error e : Reading (Option α)) := nofun

theorem commits_some (a : α) : Commits (.ok (some a)) := nofun

theorem commits_bind {x : Reading β} {f : β → Reading (Option α)} (h : ∀ b, Commits (f b)) :
    Commits (x >>= f) := by
  intro hnone
  obtain ⟨b, -, hb⟩ := Except.bind_eq_ok.1 hnone
  exact h b hb

/-- A form has begun with its first token. -/
theorem commits_form (ht : t.kind.opens = true) : Commits (form path (t :: rest)) := by
  rw [form, next_cons (Kind.ne_of_opens ht rfl), ok_bind]
  dsimp only
  -- One case for each kind that the match names, and the last one for the operators.
  split
  case h_1 =>
    refine commits_bind fun _ => ?_
    split
    · exact commits_bind fun _ => commits_some _
    · exact commits_bind fun _ => commits_some _
  case h_8 => exact commits_bind fun _ => commits_bind fun _ => commits_some _
  case h_9 =>
    split
    · exact commits_bind fun _ => commits_some _
    · exact commits_some _
  case h_10 => exact commits_some _
  case h_11 =>
    split
    · exact commits_some _
    · exact commits_error _
  case h_12 =>
    split
    case h_1 => exact commits_bind fun _ => commits_bind fun _ => commits_some _
    case h_2 hnone => simp_all [Kind.opens]
  all_goals exact commits_bind fun _ => commits_some _

/-- No form begins with the token. -/
theorem form_of_not_opens (heof : t.kind ≠ .eof) (ht : t.kind.opens = false) :
    form path (t :: rest) = .ok none := by
  rw [form, next_cons heof, ok_bind]
  dsimp only
  -- The kinds that open a form are those that the match does not leave to its last case.
  cases hkind : t.kind <;> first | rfl | (rw [hkind] at ht; cases ht)

inductive Answers (ts : List Token) : Reading (Option α) → Prop
  | stopped (h : Stopped ts) : Answers ts (.ok none)
  | ended {e : SyntaxError} (h : Ended ts) (hcause : e.cause = .prematureEnd)
      (htoken : e.token = (behindParens ts).head?) : Answers ts (.error e)
  | committed {x : Reading (Option α)} (hs : ¬ Stopped ts) (he : ¬ Ended ts) (hx : Commits x) :
      Answers ts x

theorem answers_fail {path : Path} (heof : ts.head?.all (·.kind = .eof)) :
    Answers ts (fail path .prematureEnd ts : Reading (Option α)) := by
  have hbehind : behindParens ts = ts := by
    cases ts with
    | nil => rfl
    | cons t ts =>
      have ht : t.kind = .eof := of_decide_eq_true heof
      exact behindParens_self (by simp [ht])
  exact .ended (by rwa [Ended, hbehind]) rfl (by rw [hbehind])

/-- An opening parenthesis in front passes the answer on. -/
theorem Answers.opened {p : Token} {x : Reading (Option α)} {f : Option α → Reading (Option β)}
    (h : Answers ts x) (hp : p.kind = .leftParen) (hnone : f none = .ok none)
    (hsome : ∀ a, Commits (f (some a))) : Answers (p :: ts) (x >>= f) := by
  have hbehind : behindParens (p :: ts) = behindParens ts := behindParens_cons hp
  cases h with
  | stopped hs =>
    rw [ok_bind, hnone]
    exact .stopped (by rwa [Stopped, hbehind])
  | ended he hcause htoken => exact .ended (by rwa [Ended, hbehind]) hcause (by rwa [hbehind])
  | committed hs he hx =>
    refine .committed (by rwa [Stopped, hbehind]) (by rwa [Ended, hbehind]) fun hbind => ?_
    obtain ⟨a, ha, hf⟩ := Except.bind_eq_ok.1 hbind
    cases a with
    | none => exact hx ha
    | some a => exact hsome a hf

theorem answers_form (hparen : startsWith .leftParen ts = false) : Answers ts (form path ts) := by
  cases ts with
  | nil =>
    rw [form]
    exact answers_fail rfl
  | cons t ts =>
    by_cases heof : t.kind = .eof
    · rw [form, next, if_pos heof]
      exact answers_fail (decide_eq_true heof)
    · have hp : t.kind ≠ .leftParen := by simpa [startsWith] using hparen
      have hself : behindParens (t :: ts) = t :: ts := behindParens_self hp
      have hstops : t.kind.stops = !t.kind.opens := Kind.stops_eq_not_opens heof hp
      cases hopens : t.kind.opens with
      | false =>
        rw [form_of_not_opens heof hopens]
        exact .stopped (by simp [Stopped, hself, hstops, hopens])
      | true =>
        refine .committed ?_ ?_ (commits_form hopens)
        · simp [Stopped, hself, hstops, hopens]
        · simp [Ended, hself, heof]

theorem answers_expression (path : Path) (ts : List Token) : Answers ts (expression path ts) := by
  induction ts generalizing path with
  | nil =>
    rw [expression]
    exact answers_fail rfl
  | cons t ts ih =>
    by_cases heof : t.kind = .eof
    · rw [expression, next, if_pos heof]
      exact answers_fail (decide_eq_true heof)
    by_cases hp : t.kind = .leftParen
    · rw [expression, next_cons heof, ok_bind]
      dsimp only
      rw [if_pos hp]
      split
      case isTrue => exact (ih _).opened hp rfl fun _ => commits_bind fun _ => commits_some _
      case isFalse hstart =>
        have hform : Answers ts (form (.expression :: path) ts) :=
          answers_form (Bool.eq_false_iff.2 hstart)
        exact hform.opened hp rfl fun _ => commits_bind fun _ => commits_some _
    · rw [expression_eq_form heof hp]
      exact answers_form (by simp [startsWith, hp])

theorem Answers.eq_none_iff {x : Reading (Option α)} (h : Answers ts x) :
    x = .ok none ↔ Stopped ts := by
  cases h with
  | stopped hs => exact iff_of_true rfl hs
  | ended he => exact iff_of_false nofun he.not_stopped
  | committed hs _ hx => exact iff_of_false hx hs

theorem Answers.of_ended {x : Reading (Option α)} (h : Answers ts x) (he : Ended ts) :
    ∃ e, x = .error e ∧ e.cause = .prematureEnd ∧ e.token = (behindParens ts).head? := by
  cases h with
  | stopped hs => exact absurd hs he.not_stopped
  | ended _ hcause htoken => exact ⟨_, rfl, hcause, htoken⟩
  | committed _ hne => exact absurd he hne

/-! ### Where lists end -/

theorem stopped_of_expressions {ts : List Token} {r : Parsed (List Expr) (ts.length + 1)}
    (h : expressions path ts = .ok r) : Stopped r.rest := by
  rw [expressions] at h
  obtain ⟨x, hx, h⟩ := Except.bind_eq_ok.1 h
  cases x with
  | none =>
    cases h
    exact (answers_expression path ts).eq_none_iff.1 hx
  | some p =>
    obtain ⟨e, rest, hrest⟩ := p
    obtain ⟨es, hes, h⟩ := Except.bind_eq_ok.1 h
    cases h
    exact (stopped_of_expressions hes :)
termination_by ts.length

theorem stopped_of_arms {ts : List Token} {r : Parsed (List Expr × List Expr) (ts.length + 1)}
    (h : arms path ts = .ok r) : Stopped r.rest := by
  rw [arms] at h
  obtain ⟨x, hx, h⟩ := Except.bind_eq_ok.1 h
  cases x with
  | none =>
    cases h
    exact (answers_expression path ts).eq_none_iff.1 hx
  | some p =>
    obtain ⟨condition, rest, hrest⟩ := p
    obtain ⟨y, -, h⟩ := Except.bind_eq_ok.1 h
    cases y with
    | none => cases h
    | some q =>
      obtain ⟨branch, rest', hrest'⟩ := q
      obtain ⟨es, hes, h⟩ := Except.bind_eq_ok.1 h
      cases h
      exact (stopped_of_arms hes :)
termination_by ts.length

/-- That no expression begins here is answered only in front of a token that begins none, whatever opening
parentheses are before it, and in front of the end of input the reading fails. In front of any other token
it reads an expression or fails, so that no list of expressions ends there. -/
theorem expression_outcome (path : Path) (ts : List Token) :
    (expression path ts = .ok none ↔ Stopped ts) ∧
      (Ended ts → ∃ e, expression path ts = .error e ∧ e.cause = .prematureEnd ∧
        e.token = (behindParens ts).head?) ∧
      (¬ Stopped ts → ¬ Ended ts →
        (∃ r, expression path ts = .ok (some r)) ∨ ∃ e, expression path ts = .error e) ∧
      (∀ r, expressions path ts = .ok r → Stopped r.rest) ∧
      ∀ r, arms path ts = .ok r → Stopped r.rest := by
  have hanswers := answers_expression path ts
  refine ⟨hanswers.eq_none_iff, hanswers.of_ended, fun hs _ => ?_, fun r => stopped_of_expressions,
    fun r => stopped_of_arms⟩
  cases hread : expression path ts with
  | error e => exact .inr ⟨e, rfl⟩
  | ok x =>
    cases x with
    | none => exact absurd (hanswers.eq_none_iff.1 hread) hs
    | some r => exact .inl ⟨r, rfl⟩

/-- Parentheses with nothing in them, without an end, and closed too seldom, and lists in front of one. -/
theorem outcome_of_unclosed :
    let p : Token := ⟨.leftParen, "(", .start⟩
    let q : Token := ⟨.rightParen, ")", .start⟩
    let x : Token := ⟨.identifier, "x", .start⟩
    expression [] [p, p, q] = .ok none ∧
      (∃ e, expression [] [p, p] = .error e ∧ e.cause = .prematureEnd ∧ e.token = none) ∧
      ((∃ r, expression [] [p, p, x, q] = .ok (some r)) ∨ ∃ e, expression [] [p, p, x, q] = .error e) ∧
      (∃ r, expressions [] [x, x, q] = .ok r ∧ Stopped r.rest) ∧
      ∃ r, arms [] [x, x, q] = .ok r ∧ Stopped r.rest := by
  intro p q x
  have hread : ∀ path ts, startsWith .leftBrace ts = false →
      Finds (expression path) (x :: ts) (.variable "x") ts := by
    intro path ts hts
    have hform : expression path (x :: ts) = form (.expression :: path) (x :: ts) :=
      expression_eq_form (by decide) (by decide)
    rw [finds_iff, hform, ← finds_iff]
    exact finds_variable rfl hts
  have hnone : ∀ path, Takes (expressions path) [q] [] [q] := fun _ => takes_noExpression (.inl rfl)
  have hone : ∀ path, Takes (expressions path) [x, q] _ [q] := fun _ =>
    takes_moreExpressions (fun path => hread path _ rfl) hnone
  obtain ⟨_, hlist⟩ : Takes (expressions []) [x, x, q] _ [q] :=
    takes_moreExpressions (fun path => hread path _ rfl) hone
  obtain ⟨_, harms⟩ : Takes (arms []) [x, x, q] _ [q] :=
    takes_moreArms (fun path => hread path _ rfl) (fun path => hread path _ rfl)
      fun _ => takes_noArm rfl
  have houtcome := expression_outcome [] [p, p, x, q]
  exact ⟨(expression_outcome [] [p, p, q]).1.2 (by decide),
    (expression_outcome [] [p, p]).2.1 (by decide),
    houtcome.2.2.1 (by decide) (by decide),
    ⟨_, hlist, (expression_outcome [] [x, x, q]).2.2.2.1 _ hlist⟩,
    ⟨_, harms, (expression_outcome [] [x, x, q]).2.2.2.2 _ harms⟩⟩

end Parser
end Sigil
