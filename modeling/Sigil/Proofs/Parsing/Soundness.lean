import Sigil.Proofs.Parsing.Grammar

/-! What the parser reads derives the tree that it returns. -/
namespace Sigil

theorem Except.bind_eq_ok {ε α β : Type} {x : Except ε α} {f : α → Except ε β} {b : β} :
    (x >>= f) = .ok b ↔ ∃ a, x = .ok a ∧ f a = .ok b := by
  cases x with
  | error e => exact ⟨nofun, nofun⟩
  | ok a => exact ⟨fun h => ⟨a, rfl, h⟩, fun ⟨_, ha, h⟩ => by cases ha; exact h⟩

def Derives.Before (p : Phrase) (ts rest : List Token) : Prop := ∃ a, ts = a ++ rest ∧ Derives p a

namespace Parser

variable {path : Path} {ts : List Token} {n : Nat}

theorem next_eq_ok {r : Parsed Token ts.length} (h : next path ts = .ok r) :
    ts = r.value :: r.rest := by
  cases ts with
  | nil => cases h
  | cons t ts =>
    simp only [next] at h
    split at h
    · cases h
    · cases h
      rfl

theorem expect_eq_ok {kind : Kind} {r : Parsed Unit ts.length} (h : expect path kind ts = .ok r) :
    ∃ t, t.kind = kind ∧ ts = t :: r.rest := by
  obtain ⟨⟨t, rest, hr⟩, ht, h⟩ := Except.bind_eq_ok.1 h
  dsimp only at h
  split at h
  case isFalse => cases h
  case isTrue hk =>
    cases h
    exact ⟨t, hk, next_eq_ok ht⟩

theorem name_eq_ok {place : NamePlace} {r : Parsed String ts.length}
    (h : name path place ts = .ok r) :
    ∃ t, t.kind = .identifier ∧ ts = t :: r.rest ∧ r.value = t.lexeme := by
  obtain ⟨⟨t, rest, hr⟩, ht, h⟩ := Except.bind_eq_ok.1 h
  dsimp only at h
  split at h
  case isFalse => cases h
  case isTrue hk =>
    cases h
    exact ⟨t, hk, next_eq_ok ht, rfl⟩

theorem parameters_eq_ok {ts : List Token} {r : Parsed (List String) ts.length}
    (h : parameters path ts = .ok r) :
    ∃ names q, (∀ x ∈ names, x.kind = .identifier) ∧ q.kind = .rightParen ∧
      ts = names ++ q :: r.rest ∧ r.value = names.map Token.lexeme := by
  rw [parameters] at h
  obtain ⟨⟨t, rest, hr⟩, ht, h⟩ := Except.bind_eq_ok.1 h
  dsimp only at h
  split at h
  case isTrue hk =>
    obtain ⟨⟨values, rest', hr'⟩, h', h⟩ := Except.bind_eq_ok.1 h
    cases h
    obtain ⟨names, q, hn, hq, hrest, hv⟩ := parameters_eq_ok h'
    exact ⟨t :: names, q, List.forall_mem_cons.2 ⟨hk, hn⟩, hq,
      (next_eq_ok ht).trans (congrArg (t :: ·) hrest), congrArg (t.lexeme :: ·) hv⟩
  case isFalse =>
    split at h
    case isFalse => cases h
    case isTrue hk =>
      cases h
      exact ⟨[], t, nofun, hk, next_eq_ok ht, rfl⟩
termination_by ts.length

def Sound (n : Nat) : Prop :=
  ∀ ts : List Token, ts.length < n → ∀ path (r : Parsed Expr ts.length),
    expression path ts = .ok (some r) → Derives.Before (.expression r.value) ts r.rest

theorem Sound.required {n : Nat} (hn : Sound n) {place : ExprPlace} (hts : ts.length < n)
    {r : Parsed Expr ts.length} (h : required path place ts = .ok r) :
    Derives.Before (.expression r.value) ts r.rest := by
  rw [Parser.required] at h
  obtain ⟨x, hx, h⟩ := Except.bind_eq_ok.1 h
  cases x with
  | none => cases h
  | some p =>
    cases h
    exact hn ts hts path r hx

theorem Sound.expressions {n : Nat} (hn : Sound n) {ts : List Token} (hts : ts.length < n)
    {r : Parsed (List Expr) (ts.length + 1)} (h : expressions path ts = .ok r) :
    Derives.Before (.expressions r.value) ts r.rest := by
  rw [Parser.expressions] at h
  obtain ⟨x, hx, h⟩ := Except.bind_eq_ok.1 h
  cases x with
  | none =>
    cases h
    exact ⟨[], rfl, .noExpression⟩
  | some p =>
    obtain ⟨e, rest, hp⟩ := p
    obtain ⟨⟨es, rest', hr⟩, hes, h⟩ := Except.bind_eq_ok.1 h
    cases h
    obtain ⟨a, ha, hda⟩ := hn ts hts path _ hx
    obtain ⟨b, hb, hdb⟩ := Sound.expressions hn (Nat.lt_trans hp hts) hes
    dsimp only at ha hb hdb ⊢
    subst hb ha
    exact ⟨a ++ b, (List.append_assoc ..).symm, .moreExpressions hda hdb⟩
termination_by ts.length

theorem Sound.arms {n : Nat} (hn : Sound n) {ts : List Token} (hts : ts.length < n)
    {r : Parsed (List Expr × List Expr) (ts.length + 1)} (h : arms path ts = .ok r) :
    Derives.Before (.arms r.value.1 r.value.2) ts r.rest := by
  rw [Parser.arms] at h
  obtain ⟨x, hx, h⟩ := Except.bind_eq_ok.1 h
  cases x with
  | none =>
    cases h
    exact ⟨[], rfl, .noArm⟩
  | some p =>
    obtain ⟨condition, rest, hp⟩ := p
    obtain ⟨y, hy, h⟩ := Except.bind_eq_ok.1 h
    cases y with
    | none => cases h
    | some q =>
      obtain ⟨branch, rest', hq⟩ := q
      obtain ⟨⟨⟨conditions, branches⟩, rest'', hr⟩, harms, h⟩ := Except.bind_eq_ok.1 h
      cases h
      have hrest := Nat.lt_trans hp hts
      obtain ⟨a, ha, hda⟩ := hn ts hts path _ hx
      obtain ⟨b, hb, hdb⟩ := hn rest hrest path _ hy
      obtain ⟨d, hd, hdd⟩ := Sound.arms hn (Nat.lt_trans hq hrest) harms
      dsimp only at ha hb hd hdd ⊢
      subst hd hb ha
      exact ⟨a ++ (b ++ d), by simp only [List.append_assoc], .moreArms hda hdb hdd⟩
termination_by ts.length

theorem Sound.closeGroup {n : Nat} (hn : Sound n) {left : Expr} {ts : List Token}
    (hts : ts.length ≤ n) {r : Parsed Expr ts.length} (h : closeGroup path left ts = .ok r) :
    ∃ steps b q, Derives (.tail steps) b ∧ q.kind = .rightParen ∧ r.value = left.chain steps ∧
      ts = b ++ q :: r.rest := by
  rw [Parser.closeGroup] at h
  split at h
  case h_1 op hop =>
    obtain ⟨⟨t, rest, hr⟩, ht, h⟩ := Except.bind_eq_ok.1 h
    obtain ⟨⟨right, rest', hr'⟩, hright, h⟩ := Except.bind_eq_ok.1 h
    obtain ⟨⟨e, rest'', hr''⟩, he, h⟩ := Except.bind_eq_ok.1 h
    cases h
    obtain ⟨a, ha, hda⟩ := hn.required (Nat.lt_of_lt_of_le hr hts) hright
    obtain ⟨steps, b, q, hdb, hq, hv, hrest⟩ := Sound.closeGroup hn (Nat.le_trans (by omega) hts) he
    have hts' := next_eq_ok ht
    dsimp only at ha hda hv hrest hts' ⊢
    subst hrest ha hts'
    refine ⟨(op, right) :: steps, t :: (a ++ b), q, .moreSteps ?_ hda hdb, hq, hv, by simp⟩
    exact (Operator.kind_of_ofKind? hop).symm
  case h_2 =>
    obtain ⟨⟨_, rest, hr⟩, hq, h⟩ := Except.bind_eq_ok.1 h
    cases h
    obtain ⟨q, hqk, hrest⟩ := expect_eq_ok hq
    exact ⟨[], [], q, .noStep, hqk, rfl, hrest⟩
termination_by ts.length

theorem Sound.letIn {n : Nat} (hn : Sound n) (hts : ts.length < n) {r : Parsed Expr ts.length}
    (h : letIn path ts = .ok r) {s : Token} (hs : s.kind = .assign) :
    Derives.Before (.primary r.value) (s :: ts) r.rest := by
  rw [Parser.letIn] at h
  obtain ⟨⟨_, rest1, h1⟩, h1', h⟩ := Except.bind_eq_ok.1 h
  obtain ⟨⟨values, rest2, h2⟩, h2', h⟩ := Except.bind_eq_ok.1 h
  obtain ⟨⟨_, rest3, h3⟩, h3', h⟩ := Except.bind_eq_ok.1 h
  obtain ⟨⟨es, rest4, h4⟩, h4', h⟩ := Except.bind_eq_ok.1 h
  dsimp only at h
  split at h
  case isTrue => cases h
  case isFalse hlength =>
    obtain ⟨⟨_, rest5, h5⟩, h5', h⟩ := Except.bind_eq_ok.1 h
    obtain ⟨⟨body, rest6, h6⟩, h6', h⟩ := Except.bind_eq_ok.1 h
    cases h
    dsimp only at *
    obtain ⟨p, hp, hts1⟩ := expect_eq_ok h1'
    obtain ⟨names, q, hnames, hq, hts2, hvalues⟩ := parameters_eq_ok h2'
    obtain ⟨r, hr, hts3⟩ := expect_eq_ok h3'
    obtain ⟨a, hts4, ha⟩ := hn.expressions (by omega) h4'
    obtain ⟨u, hu, hts5⟩ := expect_eq_ok h5'
    obtain ⟨b, hts6, hb⟩ := hn.required (by omega) h6'
    dsimp only at *
    subst hts6 hts5 hts4 hts3 hts2 hts1 hvalues
    rw [List.length_map, ne_eq, Decidable.not_not] at hlength
    exact ⟨_, by simp, .letIn hs hp hnames hq hr ha hu hlength hb⟩

theorem Sound.assign {n : Nat} (hn : Sound n) (hts : ts.length < n) {r : Parsed Expr ts.length}
    (h : assign path ts = .ok r) {s : Token} (hs : s.kind = .assign) :
    Derives.Before (.primary r.value) (s :: ts) r.rest := by
  rw [Parser.assign] at h
  obtain ⟨⟨x, rest1, h1⟩, h1', h⟩ := Except.bind_eq_ok.1 h
  obtain ⟨⟨value, rest2, h2⟩, h2', h⟩ := Except.bind_eq_ok.1 h
  cases h
  obtain ⟨x, hx, hts1, rfl⟩ := name_eq_ok h1'
  obtain ⟨a, hts2, ha⟩ := hn.required (Nat.lt_trans h1 hts) h2'
  dsimp only at *
  subst hts2 hts1
  exact ⟨_, by simp, .assign hs hx ha⟩

theorem Sound.select {n : Nat} (hn : Sound n) (hts : ts.length < n) {mode : Mode}
    {r : Parsed Expr ts.length} (h : select path mode ts = .ok r) {s : Token}
    (hs : s.kind = mode.kind) : Derives.Before (.primary r.value) (s :: ts) r.rest := by
  rw [Parser.select] at h
  obtain ⟨⟨_, rest1, h1⟩, h1', h⟩ := Except.bind_eq_ok.1 h
  obtain ⟨⟨⟨conditions, branches⟩, rest2, h2⟩, h2', h⟩ := Except.bind_eq_ok.1 h
  dsimp only at h
  split at h
  case isTrue => cases h
  case isFalse hsome =>
    obtain ⟨⟨_, rest3, h3⟩, h3', h⟩ := Except.bind_eq_ok.1 h
    cases h
    obtain ⟨p, hp, hts1⟩ := expect_eq_ok h1'
    obtain ⟨a, hts2, ha⟩ := hn.arms (Nat.lt_trans h1 hts) h2'
    obtain ⟨q, hq, hts3⟩ := expect_eq_ok h3'
    dsimp only at *
    subst hts3 hts2 hts1
    exact ⟨_, by simp, .select hs hp ha (fun h => hsome (List.isEmpty_iff.2 h)) hq⟩

theorem Sound.call {n : Nat} (hn : Sound n) (hts : ts.length < n) {f : Token}
    {r : Parsed Expr ts.length} (h : call path f.lexeme ts = .ok r) (hf : f.kind = .identifier) :
    Derives.Before (.primary r.value) (f :: ts) r.rest := by
  rw [Parser.call] at h
  obtain ⟨⟨_, rest1, h1⟩, h1', h⟩ := Except.bind_eq_ok.1 h
  obtain ⟨⟨arguments, rest2, h2⟩, h2', h⟩ := Except.bind_eq_ok.1 h
  obtain ⟨⟨_, rest3, h3⟩, h3', h⟩ := Except.bind_eq_ok.1 h
  cases h
  obtain ⟨p, hp, hts1⟩ := expect_eq_ok h1'
  obtain ⟨a, hts2, ha⟩ := hn.expressions (Nat.lt_trans h1 hts) h2'
  obtain ⟨q, hq, hts3⟩ := expect_eq_ok h3'
  dsimp only at *
  subst hts3 hts2 hts1
  exact ⟨_, by simp, .call hf hp ha hq⟩

theorem Sound.concat {n : Nat} (hn : Sound n) (hts : ts.length < n) {r : Parsed Expr ts.length}
    (h : concat path ts = .ok r) {s : Token} (hs : s.kind = .concat) :
    Derives.Before (.primary r.value) (s :: ts) r.rest := by
  rw [Parser.concat] at h
  obtain ⟨⟨_, rest1, h1⟩, h1', h⟩ := Except.bind_eq_ok.1 h
  obtain ⟨⟨parts, rest2, h2⟩, h2', h⟩ := Except.bind_eq_ok.1 h
  obtain ⟨⟨_, rest3, h3⟩, h3', h⟩ := Except.bind_eq_ok.1 h
  cases h
  obtain ⟨p, hp, hts1⟩ := expect_eq_ok h1'
  obtain ⟨a, hts2, ha⟩ := hn.expressions (Nat.lt_trans h1 hts) h2'
  obtain ⟨q, hq, hts3⟩ := expect_eq_ok h3'
  dsimp only at *
  subst hts3 hts2 hts1
  exact ⟨_, by simp, .concat hs hp ha hq⟩

theorem increment_eq_ok {a : Arithmetic} {r : Parsed Expr ts.length}
    (h : increment path a ts = .ok r) :
    ∃ x, x.kind = .identifier ∧ ts = x :: r.rest ∧
      r.value = .binary (.update a) (.variable x.lexeme) (.literal (.number 1)) := by
  obtain ⟨⟨x, rest, hr⟩, h1, h⟩ := Except.bind_eq_ok.1 h
  cases h
  obtain ⟨x, hx, hts, rfl⟩ := name_eq_ok h1
  exact ⟨x, hx, hts, rfl⟩

theorem Sound.form {n : Nat} (hn : Sound n) (hts : ts.length ≤ n) {r : Parsed Expr ts.length}
    (h : form path ts = .ok (some r)) : Derives.Before (.primary r.value) ts r.rest := by
  rw [Parser.form] at h
  obtain ⟨⟨t, rest, hr⟩, h1, h⟩ := Except.bind_eq_ok.1 h
  have hts1 := next_eq_ok h1
  dsimp only at h hts1
  subst hts1
  have hrest := Nat.lt_of_lt_of_le hr hts
  split at h
  case h_1 ht =>
    obtain ⟨_, _, h⟩ := Except.bind_eq_ok.1 h
    split at h
    case isTrue =>
      obtain ⟨e, h2, h⟩ := Except.bind_eq_ok.1 h
      cases h
      exact hn.letIn hrest h2 ht
    case isFalse =>
      obtain ⟨e, h2, h⟩ := Except.bind_eq_ok.1 h
      cases h
      exact hn.assign hrest h2 ht
  case h_2 ht =>
    obtain ⟨e, h2, h⟩ := Except.bind_eq_ok.1 h
    cases h
    exact hn.select hrest h2 ht
  case h_3 ht =>
    obtain ⟨e, h2, h⟩ := Except.bind_eq_ok.1 h
    cases h
    exact hn.select hrest h2 ht
  case h_4 ht =>
    obtain ⟨e, h2, h⟩ := Except.bind_eq_ok.1 h
    cases h
    exact hn.concat hrest h2 ht
  case h_5 ht =>
    obtain ⟨⟨e, rest2, hr2⟩, h2, h⟩ := Except.bind_eq_ok.1 h
    cases h
    obtain ⟨a, hts2, ha⟩ := hn.required hrest h2
    exact ⟨t :: a, congrArg (t :: ·) hts2, .not ht ha⟩
  case h_6 ht =>
    obtain ⟨e, h2, h⟩ := Except.bind_eq_ok.1 h
    cases h
    obtain ⟨x, hx, hrest, hv⟩ := increment_eq_ok h2
    exact ⟨[t, x], congrArg (t :: ·) hrest, hv ▸ .increment ht hx⟩
  case h_7 ht =>
    obtain ⟨e, h2, h⟩ := Except.bind_eq_ok.1 h
    cases h
    obtain ⟨x, hx, hrest, hv⟩ := increment_eq_ok h2
    exact ⟨[t, x], congrArg (t :: ·) hrest, hv ▸ .decrement ht hx⟩
  case h_8 ht =>
    obtain ⟨⟨c, rest2, hr2⟩, h2, h⟩ := Except.bind_eq_ok.1 h
    obtain ⟨⟨e, rest3, hr3⟩, h3, h⟩ := Except.bind_eq_ok.1 h
    cases h
    obtain ⟨a, hts2, ha⟩ := hn.required hrest h2
    obtain ⟨b, hts3, hb⟩ := hn.required (Nat.lt_trans hr2 hrest) h3
    dsimp only at *
    subst hts3 hts2
    exact ⟨_, by simp, .loop ht ha hb⟩
  case h_9 ht =>
    split at h
    case isTrue =>
      obtain ⟨e, h2, h⟩ := Except.bind_eq_ok.1 h
      cases h
      exact hn.call hrest h2 ht
    case isFalse =>
      cases h
      exact ⟨[t], rfl, .variable ht⟩
  case h_10 ht =>
    cases h
    exact ⟨[t], rfl, .string ht⟩
  case h_11 ht =>
    split at h
    case h_2 => cases h
    case h_1 x hx =>
      cases h
      obtain ⟨hread, hfinite⟩ := Option.filter_eq_some_iff.1 hx
      exact ⟨[t], rfl, .number ht hread hfinite⟩
  case h_12 =>
    split at h
    case h_2 => cases h
    case h_1 op hop =>
      obtain ⟨⟨left, rest2, hr2⟩, h2, h⟩ := Except.bind_eq_ok.1 h
      obtain ⟨⟨right, rest3, hr3⟩, h3, h⟩ := Except.bind_eq_ok.1 h
      cases h
      obtain ⟨a, hts2, ha⟩ := hn.required hrest h2
      obtain ⟨b, hts3, hb⟩ := hn.required (Nat.lt_trans hr2 hrest) h3
      dsimp only at *
      subst hts3 hts2
      exact ⟨_, by simp, .binary (Operator.kind_of_ofKind? hop).symm ha hb⟩

theorem Sound.group {n : Nat} (hn : Sound n) {p : Token} {inner rest : List Token}
    (hp : p.kind = .leftParen) {first : Expr} (ha : Derives.Before (.expression first) inner rest)
    (hrest : rest.length ≤ n) {r : Parsed Expr rest.length}
    (h : Parser.closeGroup path first rest = .ok r) :
    Derives.Before (.expression r.value) (p :: inner) r.rest := by
  obtain ⟨a, rfl, hda⟩ := ha
  obtain ⟨steps, b, q, hdb, hq, hv, hts⟩ := hn.closeGroup hrest h
  refine ⟨p :: (a ++ (b ++ [q])), ?_, hv ▸ .group hp hda hdb hq⟩
  simpa using hts

theorem Sound.expression {n : Nat} (hn : Sound n) (hts : ts.length ≤ n) {r : Parsed Expr ts.length}
    (h : expression path ts = .ok (some r)) : Derives.Before (.expression r.value) ts r.rest := by
  rw [Parser.expression] at h
  obtain ⟨⟨p, inner, hr⟩, h1, h⟩ := Except.bind_eq_ok.1 h
  have hts1 := next_eq_ok h1
  dsimp only at h hts1
  subst hts1
  have hinner := Nat.lt_of_lt_of_le hr hts
  split at h
  case isFalse =>
    obtain ⟨a, ha, hda⟩ := hn.form hts h
    exact ⟨a, ha, .primary hda⟩
  case isTrue hp =>
    split at h
    case isTrue =>
      obtain ⟨x, hx, h⟩ := Except.bind_eq_ok.1 h
      cases x with
      | none => cases h
      | some first =>
        obtain ⟨e, hclose, h⟩ := Except.bind_eq_ok.1 h
        cases h
        exact hn.group hp (hn inner hinner _ _ hx)
          (Nat.le_of_lt (Nat.lt_trans first.shorter hinner)) hclose
    case isFalse =>
      obtain ⟨x, hx, h⟩ := Except.bind_eq_ok.1 h
      cases x with
      | none => cases h
      | some first =>
        obtain ⟨e, hclose, h⟩ := Except.bind_eq_ok.1 h
        cases h
        obtain ⟨a, ha, hda⟩ := hn.form (Nat.le_of_lt hinner) hx
        exact hn.group hp ⟨a, ha, .primary hda⟩
          (Nat.le_of_lt (Nat.lt_trans first.shorter hinner)) hclose

/-- The reader of expressions is right about every list. -/
theorem sound (n : Nat) : Sound n := by
  induction n with
  | zero => exact fun ts hts => absurd hts (Nat.not_lt_zero _)
  | succ n ih => exact fun ts hts path r h => ih.expression (Nat.le_of_lt_succ hts) h

theorem function_eq_ok {r : Parsed Function ts.length} (h : function path ts = .ok r) {s : Token}
    (hs : s.kind = .function) : Derives.Before (.function r.value) (s :: ts) r.rest := by
  obtain ⟨⟨_, rest1, h1⟩, h1', h⟩ := Except.bind_eq_ok.1 h
  obtain ⟨⟨_, rest2, h2⟩, h2', h⟩ := Except.bind_eq_ok.1 h
  obtain ⟨⟨_, rest3, h3⟩, h3', h⟩ := Except.bind_eq_ok.1 h
  obtain ⟨⟨_, rest4, h4⟩, h4', h⟩ := Except.bind_eq_ok.1 h
  obtain ⟨⟨_, rest5, h5⟩, h5', h⟩ := Except.bind_eq_ok.1 h
  obtain ⟨⟨_, rest6, h6⟩, h6', h⟩ := Except.bind_eq_ok.1 h
  cases h
  have hn := sound (rest4.length + 1)
  obtain ⟨f, hf, hts1, rfl⟩ := name_eq_ok h1'
  obtain ⟨p, hp, hts2⟩ := expect_eq_ok h2'
  obtain ⟨names, q, hnames, hq, hts3, rfl⟩ := parameters_eq_ok h3'
  obtain ⟨r, hr, hts4⟩ := expect_eq_ok h4'
  obtain ⟨a, hts5, ha⟩ := hn.required (Nat.lt_succ_self _) h5'
  obtain ⟨steps, b, u, hb, hu, rfl, hts6⟩ :=
    hn.closeGroup (Nat.le_succ_of_le (Nat.le_of_lt h5)) h6'
  dsimp only at *
  subst hts6 hts5 hts4 hts3 hts2 hts1
  exact ⟨_, by simp, .function hs hf hp hnames hq hr ha hb hu⟩

theorem functions_eq_ok {ts : List Token} {r : Parsed (List Function) (ts.length + 1)}
    (h : functions path ts = .ok r) : Derives.Before (.functions r.value) ts r.rest := by
  rw [functions] at h
  obtain ⟨⟨s, rest1, h1⟩, h1', h⟩ := Except.bind_eq_ok.1 h
  dsimp only at h
  split at h
  case isFalse =>
    cases h
    exact ⟨[], rfl, .noFunction⟩
  case isTrue hs =>
    obtain ⟨⟨f, rest2, h2⟩, h2', h⟩ := Except.bind_eq_ok.1 h
    obtain ⟨⟨fs, rest3, h3⟩, h3', h⟩ := Except.bind_eq_ok.1 h
    cases h
    have hts1 := next_eq_ok h1'
    obtain ⟨a, hts2, ha⟩ := function_eq_ok h2' hs
    obtain ⟨b, hts3, hb⟩ := functions_eq_ok h3'
    dsimp only at *
    subst hts3
    exact ⟨a ++ b, by rw [hts1, hts2, List.append_assoc], .moreFunctions ha hb⟩
termination_by ts.length

end Parser

open Sigil.Parser

theorem Program.derives_of_ofTokens {ts : List Token} {p : Program}
    (h : Program.ofTokens ts = .ok p) :
    ∃ a rest, ts = a ++ rest ∧ Derives (.program p) a ∧ rest.head?.all (·.kind = .eof) := by
  obtain ⟨⟨fs, rest1, h1⟩, h1', h⟩ := Except.bind_eq_ok.1 h
  obtain ⟨⟨body, rest2, h2⟩, h2', h⟩ := Except.bind_eq_ok.1 h
  dsimp only at h
  split at h
  case isTrue => cases h
  case isFalse hend =>
    cases h
    obtain ⟨a, hts1, ha⟩ := functions_eq_ok h1'
    obtain ⟨b, hts2, hb⟩ := (sound (rest1.length + 1)).required (Nat.lt_succ_self _) h2'
    dsimp only at *
    subst hts2 hts1
    refine ⟨a ++ b, rest2, by simp, .program ha hb, ?_⟩
    cases rest2 <;> simp_all

end Sigil
