import Sigil.Expr.Printer
import Sigil.Proofs.Printing.Reads
import Sigil.Proofs.Printing.WellFormed

/-! Every form of a well-formed program is printed as a text that is read as tokens of the form. -/
namespace Sigil

open LexicalRule (isNamePart quote)

attribute [simp] Expr.render

variable {Q : List Token → Prop} {a rest : List Char}

def Kind.marks : List Kind :=
  [leftParen, rightParen, leftBrace, rightBrace, matchAll, loop, assign, function, concat]

theorem extends_of_mem_marks {kind : Kind} (hk : kind ∈ Kind.marks) (c : Char) :
    kind.extends c = false := by
  simp only [Kind.marks, List.mem_cons, List.not_mem_nil, or_false] at hk
  rcases hk with rfl | rfl | rfl | rfl | rfl | rfl | rfl | rfl | rfl <;> rfl

theorem extends_blank (op : Operator) : op.kind.extends ' ' = false := by
  have h : ∀ op ∈ Operator.all, op.kind.extends ' ' = false := by decide
  exact h op op.mem_all

theorem extends_not {c : Char} (hc : c ≠ '=') : Kind.not.extends c = false := by
  simp [Kind.extends, Kind.symbols, Kind.text, List.isPrefixOf, hc]

theorem reads_mark (kind : Kind) (c : Char) (hk : kind ∈ Kind.marks)
    (hc : kind.text.toList = [c]) (h : Reads Q a rest) :
    Reads (fun ts => ∃ t us, ts = t :: us ∧ t.kind = kind ∧ Q us) (c :: a) rest := by
  have hsymbol : ∀ k ∈ Kind.marks, k ∈ Kind.symbols := by decide
  have hread := reads_symbol (hsymbol kind hk) (fun c _ => extends_of_mem_marks hk c) h
  rwa [hc] at hread

/-- An operator that a blank ends. -/
theorem reads_operator (op : Operator) (h : Reads Q a rest) :
    Reads (fun ts => ∃ t us, ts = t :: us ∧ t.kind = op.kind ∧ Q us)
      (op.kind.text.toList ++ ' ' :: a) rest := by
  have hsymbols : ∀ op ∈ Operator.all, op.kind ∈ Kind.symbols := by decide
  refine reads_symbol (hsymbols op op.mem_all) ?_ (reads_blank rfl h)
  rintro c ⟨⟩
  exact extends_blank op

theorem reads_done (rest : List Char) : Reads (fun ts => ts = []) [] rest := reads_nil rfl

theorem Delimited.name (h : Delimited rest) : ∀ c, rest.head? = some c → isNamePart c = false := by
  intro c hc
  rcases h c hc with rfl | rfl | rfl | rfl <;> rfl

theorem Delimited.number (h : Delimited rest) :
    ∀ c, rest.head? = some c → c.isDigit = false ∧ c ≠ '.' := by
  intro c hc
  rcases h c hc with rfl | rfl | rfl | rfl <;> exact ⟨rfl, by decide⟩

/-- A group of one primary. -/
theorem Derives.grouped {p q : Token} {e : Expr} {ts : List Token} (hp : p.kind = .leftParen)
    (h : Derives (.primary e) ts) (hq : q.kind = .rightParen) :
    Derives (.expression e) (p :: (ts ++ [q])) := .group hp (.primary h) .noStep hq

def Expr.Readable (e : Expr) : Prop :=
  ∀ rest, Delimited rest → Reads (Derives (.expression e)) e.render.toList rest

/-- What is printed in front of the rest, and the parenthesis that closes a form. -/
theorem reads_close (h : Reads Q a (')' :: rest)) :
    Reads (fun ts => ∃ x q, ts = x ++ [q] ∧ Q x ∧ q.kind = .rightParen) (a ++ [')']) rest := by
  have hclose := reads_mark .rightParen ')' (by decide) rfl (reads_done rest)
  refine (Reads.append h hclose).mono ?_
  rintro _ ⟨x, _, rfl, hx, q, _, rfl, hq, rfl⟩
  exact ⟨x, q, rfl, hx, hq⟩

theorem stop {c : Char} (hc : isNamePart c = false) :
    ∀ d, (c :: a).head? = some d → isNamePart d = false := by
  rintro d ⟨⟩
  exact hc

/-- Items with blanks between them, each of which is read as one of a list of items. -/
theorem reads_spaced {α : Type} {P : α → List Token → Prop} {Q : List α → List Token → Prop}
    (hnil : Q [] []) (hcons : ∀ x xs ts us, P x ts → Q xs us → Q (x :: xs) (ts ++ us))
    {text : α → String} {xs : List α}
    (h : ∀ x ∈ xs, ∀ rest, Delimited rest → Reads (P x) (text x).toList rest)
    (hrest : Delimited rest) : Reads (Q xs) (Text.spaced (xs.map text)).toList rest := by
  induction xs with
  | nil => exact reads_nil hnil
  | cons x xs ih =>
    obtain ⟨hx, hxs⟩ := List.forall_mem_cons.1 h
    cases xs with
    | nil =>
      refine (hx rest hrest).mono fun ts hts => ?_
      rw [← List.append_nil ts]
      exact hcons x [] ts [] hts hnil
    | cons y ys =>
      have htext : (Text.spaced ((x :: y :: ys).map text)).toList =
          (text x).toList ++ ' ' :: (Text.spaced ((y :: ys).map text)).toList := by
        simp [Text.spaced]
      rw [htext]
      refine ((hx _ (delimited_cons (.inl rfl))).append (reads_blank rfl (ih hxs))).mono ?_
      rintro _ ⟨ts, us, rfl, hts, hus⟩
      exact hcons x _ ts us hts hus

theorem reads_expressions {es : List Expr} (h : ∀ e ∈ es, e.Readable) (hrest : Delimited rest) :
    Reads (Derives (.expressions es)) (Text.spaced (Expr.renderAll es)).toList rest := by
  rw [Expr.renderAll_eq_map]
  exact reads_spaced (Q := fun es => Derives (.expressions es)) .noExpression
    (fun _ _ _ _ => .moreExpressions) h hrest

theorem reads_names {names : List String} (h : ∀ x ∈ names, IsName x) (hrest : Delimited rest) :
    Reads (fun ts => (∀ t ∈ ts, t.kind = .identifier) ∧ ts.map Token.lexeme = names)
      (Text.spaced names).toList rest := by
  have hitem : ∀ x ∈ names, ∀ rest, Delimited rest →
      Reads (fun ts => ∃ t, ts = [t] ∧ t.kind = .identifier ∧ t.lexeme = x) x.toList rest := by
    intro x hx rest hrest
    have hread := reads_name (h x hx) (a := []) hrest.name (reads_done rest)
    rw [List.append_nil] at hread
    refine hread.mono ?_
    rintro _ ⟨t, _, rfl, ht, hname, rfl⟩
    exact ⟨t, rfl, ht, hname⟩
  have hread := reads_spaced
    (Q := fun xs ts => (∀ t ∈ ts, t.kind = .identifier) ∧ ts.map Token.lexeme = xs)
    ⟨List.forall_mem_nil _, rfl⟩ ?_ hitem hrest
  · rwa [List.map_id'] at hread
  · rintro x xs _ us ⟨t, rfl, ht, rfl⟩ ⟨hus, rfl⟩
    exact ⟨List.forall_mem_cons.2 ⟨ht, hus⟩, rfl⟩

theorem reads_arms {conditions branches : List Expr} (hc : ∀ e ∈ conditions, e.Readable)
    (hb : ∀ e ∈ branches, e.Readable) (hlength : conditions.length = branches.length)
    (hrest : Delimited rest) : Reads (Derives (.arms conditions branches))
      (armsText (Expr.renderAll conditions) (Expr.renderAll branches)).toList rest := by
  induction conditions generalizing branches with
  | nil =>
    cases branches with
    | nil => exact reads_nil .noArm
    | cons b bs => cases hlength
  | cons c cs ih =>
    cases branches with
    | nil => cases hlength
    | cons b bs =>
      obtain ⟨hc1, hcs⟩ := List.forall_mem_cons.1 hc
      obtain ⟨hb1, hbs⟩ := List.forall_mem_cons.1 hb
      have hih := ih hcs hbs (Nat.succ.inj hlength)
      have hmore : ∀ ts us vs, Derives (.expression c) ts → Derives (.expression b) us →
          Derives (.arms cs bs) vs → Derives (.arms (c :: cs) (b :: bs)) (ts ++ (us ++ vs)) :=
        fun _ _ _ => .moreArms
      cases cs with
      | nil =>
        cases bs with
        | cons b' bs => cases hlength
        | nil =>
          have htext : (armsText (Expr.renderAll [c]) (Expr.renderAll [b])).toList =
              c.render.toList ++ ' ' :: b.render.toList := by
            simp [armsText, Expr.renderAll]
          rw [htext]
          refine ((hc1 _ (delimited_cons (.inl rfl))).append
            (reads_blank rfl (hb1 rest hrest))).mono ?_
          rintro _ ⟨ts, us, rfl, hts, hus⟩
          rw [← List.append_nil us]
          exact hmore ts us [] hts hus .noArm
      | cons c' cs =>
        have htext : (armsText (Expr.renderAll (c :: c' :: cs)) (Expr.renderAll (b :: bs))).toList =
            c.render.toList ++ ' ' :: (b.render.toList ++
              ' ' :: (armsText (Expr.renderAll (c' :: cs)) (Expr.renderAll bs)).toList) := by
          simp [armsText, Expr.renderAll]
        rw [htext]
        refine ((hc1 _ (delimited_cons (.inl rfl))).append (reads_blank rfl
          ((hb1 _ (delimited_cons (.inl rfl))).append (reads_blank rfl hih)))).mono ?_
        rintro _ ⟨ts, _, rfl, hts, us, vs, rfl, hus, hvs⟩
        exact hmore ts us vs hts hus hvs

theorem readable_assign {name : String} {value : Expr} (hn : IsName name) (hv : value.Readable) :
    (Expr.assign name value).Readable := by
  intro rest _
  have htext : (Expr.assign name value).render.toList =
      '(' :: ':' :: ' ' :: (name.toList ++ ' ' :: (value.render.toList ++ [')'])) := by
    simp
  rw [htext]
  refine (reads_mark .leftParen '(' (by decide) rfl (reads_mark .assign ':' (by decide) rfl
    (reads_blank rfl (reads_name hn (stop rfl) (reads_blank rfl
      (reads_close (hv _ (delimited_cons (.inr (.inl rfl)))))))))).mono ?_
  rintro _ ⟨p, _, rfl, hp, s, _, rfl, hs, x, _, rfl, hx, rfl, a, q, rfl, ha, hq⟩
  exact .grouped hp (.assign hs hx ha) hq

theorem readable_loop {condition body : Expr} (hc : condition.Readable) (hb : body.Readable) :
    (Expr.loop condition body).Readable := by
  intro rest _
  have htext : (Expr.loop condition body).render.toList =
      '(' :: '^' :: ' ' :: (condition.render.toList ++ (' ' :: (body.render.toList ++ [')']))) := by
    simp
  rw [htext]
  refine (reads_mark .leftParen '(' (by decide) rfl (reads_mark .loop '^' (by decide) rfl
    (reads_blank rfl ((hc _ (delimited_cons (.inl rfl))).append (reads_blank rfl
      (reads_close (hb _ (delimited_cons (.inr (.inl rfl)))))))))).mono ?_
  rintro _ ⟨p, _, rfl, hp, s, _, rfl, hs, a, _, rfl, ha, b, q, rfl, hb, hq⟩
  rw [← List.append_assoc]
  exact .grouped hp (.loop hs ha hb) hq

theorem readable_binary {op : Operator} {left right : Expr} (hl : left.Readable)
    (hr : right.Readable) : (Expr.binary op left right).Readable := by
  intro rest _
  have htext : (Expr.binary op left right).render.toList = '(' :: (op.kind.text.toList ++ ' ' ::
      (left.render.toList ++ (' ' :: (right.render.toList ++ [')'])))) := by
    simp [Operator.symbol_eq_text]
  rw [htext]
  refine (reads_mark .leftParen '(' (by decide) rfl (reads_operator op
    ((hl _ (delimited_cons (.inl rfl))).append (reads_blank rfl
      (reads_close (hr _ (delimited_cons (.inr (.inl rfl))))))))).mono ?_
  rintro _ ⟨p, _, rfl, hp, s, _, rfl, hs, a, _, rfl, ha, b, q, rfl, hb, hq⟩
  rw [← List.append_assoc]
  exact .grouped hp (.binary hs ha hb) hq

theorem readable_number {x : Float} (hfinite : Number.isFinite x = true)
    (hsign : x.toBits.toNat < 2 ^ 63) : (Expr.literal (.number x)).Readable := by
  intro rest hrest
  obtain ⟨text, w, f, htext, hnumeral, hvalue⟩ := Number.render_numeral hfinite hsign
  have hread := reads_number hnumeral (a := []) hrest.number (reads_done rest)
  rw [List.append_nil] at hread
  rw [Expr.render, Value.literalText, htext, String.toList_ofList]
  refine hread.mono ?_
  rintro _ ⟨t, _, rfl, ht, hlexeme, rfl⟩
  have hvalue' : Number.read? t.lexeme = some x := by
    rw [hlexeme, Number.read?_numeral hnumeral, hvalue]
  exact .primary (.number ht hvalue' hfinite)

theorem readable_string {s : String} (hs : quote ∉ s.toList) :
    (Expr.literal (.string s)).Readable := by
  intro rest _
  have htext : (Expr.literal (.string s)).render.toList = quote :: (s.toList ++ [quote]) := by
    simp [Value.literalText, quote]
  rw [htext]
  refine (reads_string hs (reads_done rest)).mono ?_
  rintro _ ⟨t, _, rfl, ht, rfl, rfl⟩
  exact .primary (.string ht)

theorem readable_variable {name : String} (hn : IsName name) : (Expr.variable name).Readable := by
  intro rest hrest
  have hread := reads_name hn (a := []) hrest.name (reads_done rest)
  rw [List.append_nil] at hread
  refine hread.mono ?_
  rintro _ ⟨t, _, rfl, ht, rfl, rfl⟩
  exact .primary (.variable ht)

theorem readable_letIn {names : List String} {values : List Expr} {body : Expr}
    (hn : ∀ x ∈ names, IsName x) (hv : ∀ e ∈ values, e.Readable)
    (hlength : names.length = values.length) (hb : body.Readable) :
    (Expr.letIn names values body).Readable := by
  intro rest _
  have htext : (Expr.letIn names values body).render.toList =
      '(' :: ':' :: '(' :: ((Text.spaced names).toList ++ ')' :: '(' ::
        ((Text.spaced (Expr.renderAll values)).toList ++ ')' :: ' ' ::
          (body.render.toList ++ [')']))) := by
    simp
  rw [htext]
  refine (reads_mark .leftParen '(' (by decide) rfl (reads_mark .assign ':' (by decide) rfl
    (reads_mark .leftParen '(' (by decide) rfl
      ((reads_names hn (delimited_cons (.inr (.inl rfl)))).append
        (reads_mark .rightParen ')' (by decide) rfl (reads_mark .leftParen '(' (by decide) rfl
          ((reads_expressions hv (delimited_cons (.inr (.inl rfl)))).append
            (reads_mark .rightParen ')' (by decide) rfl (reads_blank rfl
              (reads_close (hb _ (delimited_cons (.inr (.inl rfl)))))))))))))).mono ?_
  rintro _ ⟨o, _, rfl, ho, s, _, rfl, hs, p, _, rfl, hp, ns, _, rfl, ⟨hns, rfl⟩, q, _, rfl, hq, r, _,
    rfl, hr, a, _, rfl, ha, u, _, rfl, hu, b, v, rfl, hb, hv⟩
  rw [List.length_map] at hlength
  simpa using Derives.grouped ho (.letIn hs hp hns hq hr ha hu hlength hb) hv

theorem reads_mode (mode : Mode) (h : Reads Q ('(' :: a) rest) :
    Reads (fun ts => ∃ t us, ts = t :: us ∧ t.kind = mode.kind ∧ Q us)
      (mode.symbol.toList ++ '(' :: a) rest := by
  have hsymbol : mode.kind ∈ Kind.symbols := by cases mode <;> decide
  have htext : mode.symbol = mode.kind.text := by cases mode <;> rfl
  rw [htext]
  refine reads_symbol hsymbol ?_ h
  rintro c ⟨⟩
  cases mode <;> rfl

theorem readable_select {mode : Mode} {conditions branches : List Expr}
    (hc : ∀ e ∈ conditions, e.Readable) (hb : ∀ e ∈ branches, e.Readable)
    (hlength : conditions.length = branches.length) (hsome : conditions ≠ []) :
    (Expr.select mode conditions branches).Readable := by
  intro rest _
  have htext : (Expr.select mode conditions branches).render.toList = mode.symbol.toList ++
      '(' :: ((armsText (Expr.renderAll conditions) (Expr.renderAll branches)).toList ++ [')']) := by
    simp
  rw [htext]
  refine (reads_mode mode (reads_mark .leftParen '(' (by decide) rfl
    (reads_close (reads_arms hc hb hlength (delimited_cons (.inr (.inl rfl))))))).mono ?_
  rintro _ ⟨s, _, rfl, hs, p, _, rfl, hp, a, q, rfl, ha, hq⟩
  exact .primary (.select hs hp ha hsome hq)

theorem readable_call {name : String} {arguments : List Expr} (hn : IsName name)
    (ha : ∀ e ∈ arguments, e.Readable) : (Expr.call name arguments).Readable := by
  intro rest _
  have htext : (Expr.call name arguments).render.toList =
      name.toList ++ '{' :: ((Text.spaced (Expr.renderAll arguments)).toList ++ ['}']) := by
    simp
  rw [htext]
  refine (reads_name hn (stop rfl) (reads_mark .leftBrace '{' (by decide) rfl
    ((reads_expressions ha (delimited_cons (.inr (.inr (.inl rfl))))).append
      (reads_mark .rightBrace '}' (by decide) rfl (reads_done rest))))).mono ?_
  rintro _ ⟨f, _, rfl, hf, rfl, p, _, rfl, hp, a, _, rfl, ha, q, _, rfl, hq, rfl⟩
  exact .primary (.call hf hp ha hq)

theorem readable_concat {parts : List Expr} (h : ∀ e ∈ parts, e.Readable) :
    (Expr.concat parts).Readable := by
  intro rest _
  have htext : (Expr.concat parts).render.toList =
      '.' :: '(' :: ((Text.spaced (Expr.renderAll parts)).toList ++ [')']) := by
    simp
  rw [htext]
  refine (reads_mark .concat '.' (by decide) rfl (reads_mark .leftParen '(' (by decide) rfl
    (reads_close (reads_expressions h (delimited_cons (.inr (.inl rfl))))))).mono ?_
  rintro _ ⟨s, _, rfl, hs, p, _, rfl, hp, a, q, rfl, ha, hq⟩
  exact .primary (.concat hs hp ha hq)

/-- No printed expression turns the sign of a negation in front of it into another symbol. -/
theorem head_render {e : Expr} (h : e.WellFormed) :
    ∃ c, e.render.toList.head? = some c ∧ c ≠ '=' := by
  cases h with
  | number hfinite hsign =>
    obtain ⟨text, w, f, htext, hnumeral, -⟩ := Number.render_numeral hfinite hsign
    obtain ⟨c, tail, rfl, hc⟩ := hnumeral.head
    refine ⟨c, by rw [Expr.render, Value.literalText, htext, String.toList_ofList]; rfl, ?_⟩
    rintro rfl
    cases hc
  | «variable» hn =>
    obtain ⟨c, tail, rfl, hc, -⟩ := hn
    refine ⟨c, by rw [Expr.render, String.toList_ofList]; rfl, ?_⟩
    rintro rfl
    cases hc
  | call hn =>
    obtain ⟨c, tail, rfl, hc, -⟩ := hn
    refine ⟨c, by simp, ?_⟩
    rintro rfl
    cases hc
  | @select mode =>
    cases mode with
    | all => exact ⟨'@', by simp [Mode.symbol], by decide⟩
    | first => exact ⟨'|', by simp [Mode.symbol], by decide⟩
  | string => exact ⟨quote, by simp [Value.literalText, quote], by decide⟩
  | assign | letIn | loop | binary => exact ⟨'(', by simp, by decide⟩
  | not => exact ⟨'!', by simp, by decide⟩
  | concat => exact ⟨'.', by simp, by decide⟩

theorem readable_not {e : Expr} (h : e.WellFormed) (hr : e.Readable) :
    (Expr.not e).Readable := by
  intro rest hrest
  obtain ⟨c, hhead, hc⟩ := head_render h
  have htext : (Expr.not e).render.toList = Kind.not.text.toList ++ e.render.toList := by
    simp [Kind.text]
  rw [htext]
  refine (reads_symbol (by decide) ?_ (hr rest hrest)).mono ?_
  · rw [List.head?_append, hhead]
    rintro d ⟨⟩
    exact extends_not hc
  · rintro _ ⟨s, a, rfl, hs, ha⟩
    exact .primary (.not hs ha)

theorem readable_of_wellFormed {e : Expr} (h : e.WellFormed) : e.Readable := by
  induction h with
  | number hfinite hsign => exact readable_number hfinite hsign
  | string hs => exact readable_string hs
  | «variable» hn => exact readable_variable hn
  | assign hn _ ih => exact readable_assign hn ih
  | letIn hn _ hlength _ ihv ihb => exact readable_letIn hn ihv hlength ihb
  | loop _ _ ihc ihb => exact readable_loop ihc ihb
  | select _ _ hlength hsome ihc ihb => exact readable_select ihc ihb hlength hsome
  | call hn _ ih => exact readable_call hn ih
  | not h ih => exact readable_not h ih
  | concat _ ih => exact readable_concat ih
  | binary _ _ ihl ihr => exact readable_binary ihl ihr

inductive Bracketed : Expr → List Token → Prop
  | mk {p q : Token} {first : Expr} {steps : List (Operator × Expr)} {a b : List Token}
      (hp : p.kind = .leftParen) (ha : Derives (.expression first) a) (hb : Derives (.tail steps) b)
      (hq : q.kind = .rightParen) : Bracketed (first.chain steps) (p :: (a ++ (b ++ [q])))

theorem Bracketed.expression {e : Expr} {ts : List Token} (h : Bracketed e ts) :
    Derives (.expression e) ts := by
  obtain ⟨hp, ha, hb, hq⟩ := h
  exact .group hp ha hb hq

/-- One expression in parentheses. -/
theorem reads_bracketed {e : Expr} (h : Reads (Derives (.expression e)) a (')' :: rest)) :
    Reads (Bracketed e) ('(' :: (a ++ [')'])) rest := by
  refine (reads_mark .leftParen '(' (by decide) rfl (reads_close h)).mono ?_
  rintro _ ⟨p, _, rfl, hp, x, q, rfl, hx, hq⟩
  exact Bracketed.mk hp hx .noStep hq

/-- A function is read from its head and any group behind it. -/
theorem reads_declaration {name : String} {parameters : List String} {e : Expr} (hn : IsName name)
    (hparameters : ∀ x ∈ parameters, IsName x) (h : Reads (Bracketed e) a rest) :
    Reads (Derives (.function ⟨name, parameters, e⟩))
      ('~' :: (name.toList ++ '(' :: ((Text.spaced parameters).toList ++ ')' :: a))) rest := by
  refine (reads_mark .function '~' (by decide) rfl (reads_name hn (stop rfl)
    (reads_mark .leftParen '(' (by decide) rfl
      ((reads_names hparameters (delimited_cons (.inr (.inl rfl)))).append
        (reads_mark .rightParen ')' (by decide) rfl h))))).mono ?_
  rintro _ ⟨s, _, rfl, hs, f, _, rfl, hf, rfl, p, _, rfl, hp, ns, _, rfl, ⟨hns, rfl⟩, q, _, rfl, hq,
    ⟨hr, ha, hb, hu⟩⟩
  exact .function hs hf hp hns hq hr ha hb hu

theorem reads_function {f : Function} (h : f.WellFormed) :
    Reads (Derives (.function f)) f.render.toList rest := by
  have htext : f.render.toList = '~' :: (f.name.toList ++ '(' ::
      ((Text.spaced f.parameters).toList ++ ')' :: '(' :: (f.body.render.toList ++ [')']))) := by
    simp [Function.render]
  rw [htext]
  exact reads_declaration h.name h.parameters
    (reads_bracketed (readable_of_wellFormed h.body _ (delimited_cons (.inr (.inl rfl)))))

theorem reads_functions {fs : List Function} (h : ∀ f ∈ fs, f.WellFormed) :
    Reads (Derives (.functions fs)) (String.join (fs.map fun f => f.render ++ "\n")).toList rest := by
  induction fs with
  | nil => exact reads_nil .noFunction
  | cons f fs ih =>
    obtain ⟨hf, hfs⟩ := List.forall_mem_cons.1 h
    have htext : (String.join ((f :: fs).map fun f => f.render ++ "\n")).toList =
        f.render.toList ++ '\n' :: (String.join (fs.map fun f => f.render ++ "\n")).toList := by
      simp
    rw [htext]
    refine ((reads_function hf).append (reads_blank rfl (ih hfs))).mono ?_
    rintro _ ⟨a, b, rfl, ha, hb⟩
    exact .moreFunctions ha hb

theorem reads_program {p : Program} (h : p.WellFormed) :
    Reads (Derives (.program p)) p.render.toList [] := by
  rw [Program.render, String.toList_append]
  refine ((reads_functions h.functions).append
    (readable_of_wellFormed h.body [] delimited_nil)).mono ?_
  rintro _ ⟨a, b, rfl, ha, hb⟩
  exact .program ha hb

end Sigil
