import Sigil.Proofs.Printing.Inverse

/-! A group written with its operators between the operands is read as the chain of the operands
from the left, which is the tree of the nested text with operators in front. -/
namespace Sigil

variable {rest : List Char} {first e : Expr} {steps : List (Operator × Expr)}

def tailText (steps : List (Operator × Expr)) : String :=
  String.join (steps.map fun step => " " ++ step.1.symbol ++ " " ++ step.2.render)

def Expr.groupText (first : Expr) (steps : List (Operator × Expr)) : String :=
  "(" ++ first.render ++ tailText steps ++ ")"

def enclosed : Nat → String → String
  | 0, text => text
  | pairs + 1, text => "(" ++ enclosed pairs text ++ ")"

theorem delimited_tailText (hrest : Delimited rest) :
    Delimited ((tailText steps).toList ++ rest) := by
  cases steps with
  | nil => simpa [tailText] using hrest
  | cons step steps =>
    have hhead : (tailText (step :: steps)).toList.head? = some ' ' := by simp [tailText]
    intro c hc
    rw [List.head?_append, hhead] at hc
    obtain rfl : ' ' = c := by simpa using hc
    exact .inl rfl

/-- By induction on the operators: behind every operand stands a blank or the end of the tail, so
that no operand goes on into the next operator. -/
theorem reads_tail (hs : ∀ step ∈ steps, step.2.Readable) (hrest : Delimited rest) :
    Reads (Derives (.tail steps)) (tailText steps).toList rest := by
  induction steps with
  | nil => exact reads_nil .noStep
  | cons step steps ih =>
    obtain ⟨op, e⟩ := step
    obtain ⟨he, hs⟩ := List.forall_mem_cons.1 hs
    have htext : (tailText ((op, e) :: steps)).toList = ' ' :: (op.kind.text.toList ++ ' ' ::
        (e.render.toList ++ (tailText steps).toList)) := by
      simp [tailText, Operator.symbol_eq_text]
    rw [htext]
    have hoperand := (he _ (delimited_tailText hrest)).append (ih hs)
    refine (reads_blank rfl (reads_operator op hoperand)).mono ?_
    rintro _ ⟨t, _, rfl, ht, a, b, rfl, ha, hb⟩
    exact .moreSteps ht ha hb

theorem reads_group (hf : first.Readable) (hs : ∀ step ∈ steps, step.2.Readable) :
    Reads (Bracketed (first.chain steps)) (first.groupText steps).toList rest := by
  have htext : (first.groupText steps).toList =
      '(' :: (first.render.toList ++ ((tailText steps).toList ++ [')'])) := by
    simp [Expr.groupText]
  rw [htext]
  have hclosed : Delimited (')' :: rest) := delimited_cons (.inr (.inl rfl))
  have hfirst : Reads (Derives (.expression first)) first.render.toList
      ((tailText steps).toList ++ [')'] ++ rest) := by
    rw [List.append_assoc]
    exact hf _ (delimited_tailText hclosed)
  refine (reads_mark .leftParen '(' (by decide) rfl
    (hfirst.append (reads_close (reads_tail hs hclosed)))).mono ?_
  rintro _ ⟨p, _, rfl, hp, a, _, rfl, ha, b, q, rfl, hb, hq⟩
  exact .mk hp ha hb hq

theorem reads_enclosed {text : String} (h : ∀ rest, Reads (Bracketed e) text.toList rest)
    (pairs : Nat) (rest : List Char) : Reads (Bracketed e) (enclosed pairs text).toList rest := by
  induction pairs generalizing rest with
  | zero => exact h rest
  | succ pairs ih =>
    have htext : (enclosed (pairs + 1) text).toList =
        '(' :: ((enclosed pairs text).toList ++ [')']) := by
      simp [enclosed]
    rw [htext]
    exact reads_bracketed ((ih _).mono fun _ => Bracketed.expression)

/-- One more function in front of a well-formed program, its body a group. -/
theorem parse_declaration {name text gap : String} {parameters : List String} {p : Program}
    (hn : IsName name) (hparameters : ∀ x ∈ parameters, IsName x)
    (htext : ∀ rest, Reads (Bracketed e) text.toList rest)
    (hgap : ∀ c ∈ gap.toList, Text.isBlank c = true) (hp : p.WellFormed) :
    parse ("~" ++ name ++ "(" ++ Text.spaced parameters ++ ")" ++ text ++ gap ++ p.render) =
      .ok ⟨⟨name, parameters, e⟩ :: p.functions, p.body⟩ := by
  apply parse_of_reads
  have hlist : ("~" ++ name ++ "(" ++ Text.spaced parameters ++ ")" ++ text ++ gap ++
      p.render).toList = ('~' :: (name.toList ++ '(' :: ((Text.spaced parameters).toList ++ ')' ::
        text.toList))) ++ (gap.toList ++ p.render.toList) := by
    simp
  rw [hlist]
  refine ((reads_declaration hn hparameters (htext _)).append
    (reads_blanks hgap (reads_program hp))).mono ?_
  rintro _ ⟨a, b, rfl, ha, hb⟩
  cases hb with
  | @program fs body b c hfs hbody =>
    rw [← List.append_assoc]
    exact .program (.moreFunctions ha hfs) hbody

/-- The operators of a group apply from the left, whatever the operands are, and parentheses around
the group change nothing; as the body of a function the group is the same tree. -/
theorem Program.parse_group (hf : first.WellFormed) (hs : ∀ step ∈ steps, step.2.WellFormed)
    (pairs : Nat) :
    parse (enclosed pairs (first.groupText steps)) = .ok ⟨[], first.chain steps⟩ ∧
      parse (first.chain steps).render = .ok ⟨[], first.chain steps⟩ ∧
      ∀ (name : String) (parameters : List String) (gap : String) (p : Program), IsName name →
        (∀ x ∈ parameters, IsName x) → (∀ c ∈ gap.toList, Text.isBlank c = true) → p.WellFormed →
        parse ("~" ++ name ++ "(" ++ Text.spaced parameters ++ ")" ++
            enclosed pairs (first.groupText steps) ++ gap ++ p.render) =
          .ok ⟨⟨name, parameters, first.chain steps⟩ :: p.functions, p.body⟩ := by
  have hgroup : ∀ rest, Reads (Bracketed (first.chain steps))
      (enclosed pairs (first.groupText steps)).toList rest :=
    reads_enclosed (fun _ => reads_group (readable_of_wellFormed hf)
      fun step hstep => readable_of_wellFormed (hs step hstep)) pairs
  have halone : ∀ {text : List Char}, Reads (Derives (.expression (first.chain steps))) text [] →
      Reads (Derives (.program ⟨[], first.chain steps⟩)) text [] :=
    fun h => h.mono fun _ => .program .noFunction
  refine ⟨parse_of_reads (halone ((hgroup []).mono fun _ => Bracketed.expression)),
    parse_of_reads (halone (readable_of_wellFormed (hf.chain hs) [] delimited_nil)), ?_⟩
  intro name parameters gap p hn hparameters hgap hp
  exact parse_declaration hn hparameters hgroup hgap hp

def mixture : List (Operator × Expr) :=
  [(.arithmetic .subtract, .literal (.number 1)), (.update .add, .literal (.string "a b"))]

def mixed : Expr :=
  .binary (.update .add) (.binary (.arithmetic .subtract) (.not (.variable "x")) (.literal (.number 1)))
    (.literal (.string "a b"))

/-- A negation is the whole first operand, without the operator behind it. -/
theorem Program.parse_mixture :
    (Expr.not (.variable "x")).WellFormed ∧ (∀ step ∈ mixture, step.2.WellFormed) ∧
      parse "((!x - 1 += 'a b'))" = .ok ⟨[], mixed⟩ ∧
      parse "(+= (- !x 1) 'a b')" = .ok ⟨[], mixed⟩ ∧
      parse "~f(x y)((!x - 1 += 'a b'))\n!x" =
        .ok ⟨[⟨"f", ["x", "y"], mixed⟩], .not (.variable "x")⟩ := by
  have hx : IsName "x" := ⟨'x', [], rfl, rfl, by simp⟩
  have hf : IsName "f" := ⟨'f', [], rfl, rfl, by simp⟩
  have hy : IsName "y" := ⟨'y', [], rfl, rfl, by simp⟩
  have hnot : (Expr.not (.variable "x")).WellFormed := .not (.variable hx)
  have hstring : (Expr.literal (.string "a b")).WellFormed := .string (by simp [LexicalRule.quote])
  have hsteps : ∀ step ∈ mixture, step.2.WellFormed := by
    simpa [mixture] using And.intro wellFormed_one hstring
  obtain ⟨halone, hprefix, hbody⟩ := parse_group hnot hsteps 1
  have htext : enclosed 1 ((Expr.not (.variable "x")).groupText mixture) = "((!x - 1 += 'a b'))" := by
    decide +kernel
  have hnested : ((Expr.not (.variable "x")).chain mixture).render = "(+= (- !x 1) 'a b')" := by
    decide +kernel
  have hgap : ∀ c ∈ "\n".toList, Text.isBlank c = true := by
    intro c hc
    obtain rfl : c = '\n' := by simpa using hc
    rfl
  have hfunction := hbody "f" ["x", "y"] "\n" ⟨[], .not (.variable "x")⟩ hf (by simpa using ⟨hx, hy⟩)
    hgap ⟨List.forall_mem_nil _, hnot⟩
  have hwhole : "~" ++ "f" ++ "(" ++ Text.spaced ["x", "y"] ++ ")" ++ "((!x - 1 += 'a b'))" ++ "\n" ++
      Program.render ⟨[], .not (.variable "x")⟩ = "~f(x y)((!x - 1 += 'a b'))\n!x" := by
    decide +kernel
  rw [htext] at halone
  rw [htext, hwhole] at hfunction
  rw [hnested] at hprefix
  exact ⟨hnot, hsteps, halone, hprefix, hfunction⟩

end Sigil
