import Sigil.Proofs.Parsing.Completeness
import Sigil.Proofs.Parsing.Soundness

/-! The parser accepts exactly the derived token lists, each of which has one tree, and reads an
expression alike wherever its tokens stand. -/
namespace Sigil

theorem takeWhile_append {a rest : List Token} (ha : ∀ t ∈ a, t.kind ≠ .eof)
    (hrest : rest.head?.all (·.kind = .eof)) : (a ++ rest).takeWhile (·.kind ≠ .eof) = a := by
  have hnil : rest.takeWhile (·.kind ≠ .eof) = [] := by
    cases rest with
    | nil => rfl
    | cons t rest => simp_all
  rw [List.takeWhile_append_of_pos (by simpa using ha), hnil, List.append_nil]

theorem head_dropWhile (ts : List Token) :
    (ts.dropWhile (·.kind ≠ .eof)).head?.all (·.kind = .eof) := by
  induction ts with
  | nil => rfl
  | cons t ts ih =>
    by_cases h : t.kind = .eof
    · simp [h]
    · simpa [h] using ih

theorem Program.ofTokens_of_derives {ts : List Token} {p : Program}
    (h : Derives (.program p) (ts.takeWhile (·.kind ≠ .eof))) : Program.ofTokens ts = .ok p := by
  have hread := Parser.accepts_of_derives h _ (head_dropWhile ts)
  rwa [List.takeWhile_append_dropWhile] at hread

theorem Program.derives_takeWhile {ts : List Token} {p : Program}
    (h : Program.ofTokens ts = .ok p) : Derives (.program p) (ts.takeWhile (·.kind ≠ .eof)) := by
  obtain ⟨a, rest, rfl, ha, hrest⟩ := Program.derives_of_ofTokens h
  rwa [takeWhile_append ha.kind_ne_eof hrest]

/-- The tokens before the first end of input are what counts. -/
theorem Program.accepted_iff_derives :
    (∀ ts p, Program.ofTokens ts = .ok p ↔ Derives (.program p) (ts.takeWhile (·.kind ≠ .eof))) ∧
      ∀ ts p q, Derives (.program p) ts → Derives (.program q) ts → p = q := by
  refine ⟨fun ts p => ⟨derives_takeWhile, ofTokens_of_derives⟩, fun ts p q hp hq => ?_⟩
  have hp' := Parser.accepts_of_derives hp [] rfl
  have hq' := Parser.accepts_of_derives hq [] rfl
  rw [hp'] at hq'
  cases hq'
  rfl

def differenceTokens : List Token :=
  [⟨.leftParen, "(", ⟨1, 1⟩⟩, ⟨.identifier, "a", ⟨1, 2⟩⟩, ⟨.minus, "-", ⟨1, 3⟩⟩,
    ⟨.identifier, "b", ⟨1, 4⟩⟩, ⟨.minus, "-", ⟨1, 5⟩⟩, ⟨.identifier, "c", ⟨1, 6⟩⟩,
    ⟨.rightParen, ")", ⟨1, 7⟩⟩]

def difference : Program :=
  ⟨[], .binary (.arithmetic .subtract)
    (.binary (.arithmetic .subtract) (.variable "a") (.variable "b")) (.variable "c")⟩

theorem difference_grouped : Derives (.expression difference.body) differenceTokens := by
  have ha := (Derives.variable (t := ⟨.identifier, "a", ⟨1, 2⟩⟩) rfl).primary
  have hb := (Derives.variable (t := ⟨.identifier, "b", ⟨1, 4⟩⟩) rfl).primary
  have hc := (Derives.variable (t := ⟨.identifier, "c", ⟨1, 6⟩⟩) rfl).primary
  have hsteps : Derives
      (.tail [(.arithmetic .subtract, .variable "b"), (.arithmetic .subtract, .variable "c")])
      [⟨.minus, "-", ⟨1, 3⟩⟩, ⟨.identifier, "b", ⟨1, 4⟩⟩, ⟨.minus, "-", ⟨1, 5⟩⟩,
        ⟨.identifier, "c", ⟨1, 6⟩⟩] :=
    .moreSteps rfl hb (.moreSteps rfl hc .noStep)
  have hp : (⟨.leftParen, "(", ⟨1, 1⟩⟩ : Token).kind = .leftParen := rfl
  have hq : (⟨.rightParen, ")", ⟨1, 7⟩⟩ : Token).kind = .rightParen := rfl
  exact .group hp ha hsteps hq

theorem difference_derives : Derives (.program difference) differenceTokens :=
  .program .noFunction difference_grouped

/-- Infix operators associate to the left, and a token behind the end of input is not read. -/
theorem Program.accepts_difference :
    Program.ofTokens (differenceTokens ++ [⟨.eof, "", ⟨1, 8⟩⟩, ⟨.rightParen, ")", ⟨1, 9⟩⟩]) =
        .ok difference ∧
      ∀ q, Derives (.program q) differenceTokens → q = difference :=
  ⟨(accepted_iff_derives.1 _ _).2 difference_derives,
    fun _ hq => accepted_iff_derives.2 _ _ _ hq difference_derives⟩

/-- What an expression is read as is settled by the tokens it is read from, of which there is at least
one, unless a brace follows. -/
theorem Parser.expression_local {path : Path} {ts : List Token} {r : Parsed Expr ts.length}
    (h : expression path ts = .ok (some r)) :
    ∃ a, ts = a ++ r.rest ∧ a ≠ [] ∧ (∀ t ∈ a, t.kind ≠ .eof) ∧
      ∀ b, startsWith .leftBrace b = false → ∀ path, Finds (expression path) (a ++ b) r.value b := by
  obtain ⟨a, hts, ha⟩ := sound (ts.length + 1) ts (Nat.lt_succ_self _) path r h
  obtain ⟨t, rest, hcons, -⟩ := ha.opens_of_expression
  have hsome : a ≠ [] := hcons ▸ List.cons_ne_nil t rest
  exact ⟨a, hts, hsome, ha.kind_ne_eof, fun b hb path => accepts_of_derives ha path b hb⟩

/-- A group that is read at the end of input is read alike in front of anything but a brace. -/
theorem Parser.difference_local :
    Finds (expression []) differenceTokens difference.body [] ∧
      ∀ b, startsWith .leftBrace b = false →
        ∀ path, Finds (expression path) (differenceTokens ++ b) difference.body b := by
  have hread : Finds (expression []) (differenceTokens ++ []) difference.body [] :=
    accepts_of_derives difference_grouped [] [] rfl
  rw [List.append_nil] at hread
  obtain ⟨h, hresult⟩ := hread
  obtain ⟨a, hts, -, -, hlocal⟩ := expression_local hresult
  obtain rfl : a = differenceTokens := (hts.trans (List.append_nil a)).symm
  exact ⟨⟨h, hresult⟩, hlocal⟩

end Sigil
