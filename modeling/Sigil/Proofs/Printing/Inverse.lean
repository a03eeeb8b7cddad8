import Sigil.Proofs.Printing.Forms

/-! Printing and parsing are inverse to each other on well-formed programs. -/
namespace Sigil

theorem parse_of_reads {p : Program} {text : String}
    (h : Reads (Derives (.program p)) text.toList []) : parse text = .ok p := by
  obtain ⟨ts, position, htokenize, hts⟩ := h.tokenize fun _ hts => hts.kind_ne_illegal
  have hread : Program.ofTokens (ts ++ [⟨.eof, "", position⟩]) = .ok p :=
    Parser.accepts_of_derives hts _ rfl
  unfold parse readTokens
  rw [htokenize]
  show (Program.ofTokens _).mapError Failure.grammar = _
  rw [hread]
  rfl

/-- A well-formed program is read back from its text, and every program read from a text is well
formed, so that it is read back too. -/
theorem Program.parse_render :
    (∀ p : Program, p.WellFormed → parse p.render = .ok p) ∧
      (∀ source p, parse source = .ok p → p.WellFormed) ∧
      ∀ source p, parse source = .ok p → parse p.render = .ok p := by
  have hinverse : ∀ p : Program, p.WellFormed → parse p.render = .ok p :=
    fun p h => parse_of_reads (reads_program h)
  exact ⟨hinverse, fun _ _ => wellFormed_of_parse, fun _ p h => hinverse p (wellFormed_of_parse h)⟩

def selection : Program :=
  ⟨[⟨"half", ["x_1"], .binary (.arithmetic .divide) (.variable "x_1") (.literal (.number 2))⟩],
    .not (.select .first [.call "half" [.literal (.number 0.5)], .not (.variable "y")]
      [.concat [.literal (.string "a\n b")], .variable "y"])⟩

theorem render_selection : selection.render =
    "~half(x_1)((/ x_1 2))\n!|(half\x7b0.5\x7d .('a\n b') !y y)" := by
  decide +kernel

theorem wellFormed_selection : selection.WellFormed := by
  have hnumber : ∀ x ∈ [(2 : Float), 0.5],
      Number.isFinite x = true ∧ x.toBits.toNat < 2 ^ 63 := by decide +kernel
  have htwo : (Expr.literal (.number 2)).WellFormed :=
    .number (hnumber 2 (by simp)).1 (hnumber 2 (by simp)).2
  have hpoint : (Expr.literal (.number 0.5)).WellFormed :=
    .number (hnumber 0.5 (by simp)).1 (hnumber 0.5 (by simp)).2
  have hstring : (Expr.literal (.string "a\n b")).WellFormed := .string (by simp [LexicalRule.quote])
  have hhalf : IsName "half" := ⟨'h', ['a', 'l', 'f'], rfl, rfl, by simp⟩
  have hx : IsName "x_1" := ⟨'x', ['_', '1'], rfl, rfl, by simp⟩
  have hy : (Expr.variable "y").WellFormed := .variable ⟨'y', [], rfl, rfl, by simp⟩
  refine ⟨?_, .not (.select ?_ ?_ rfl (by simp))⟩
  · simpa [selection] using
      Function.WellFormed.mk hhalf (by simpa using hx) (.binary (.variable hx) htwo)
  · simpa using And.intro (Expr.WellFormed.call hhalf (by simpa using hpoint))
      (Expr.WellFormed.not hy)
  · simpa using And.intro (Expr.WellFormed.concat (by simpa using hstring)) hy

def incremented : Program :=
  ⟨[], .binary (.update .add) (.variable "y") (.literal (.number 1))⟩

theorem parse_incremented : parse "++y" = .ok incremented := by with_unfolding_all rfl

/-- The printed signs `!` and `|` are not taken for one symbol, and an increment is printed as the
update it is read as. -/
theorem Program.parse_selection :
    parse "~half(x_1)((/ x_1 2))\n!|(half\x7b0.5\x7d .('a\n b') !y y)" = .ok selection ∧
      incremented.WellFormed ∧ parse "(+= y 1)" = .ok incremented := by
  obtain ⟨hinverse, hwell, hagain⟩ := parse_render
  have hrender : incremented.render = "(+= y 1)" := by decide +kernel
  exact ⟨render_selection ▸ hinverse selection wellFormed_selection,
    hwell _ _ parse_incremented, hrender ▸ hagain _ _ parse_incremented⟩

end Sigil
