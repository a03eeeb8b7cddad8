import Mathlib.Data.List.Induction
import Sigil.Proofs.Tokens.Words

/-!
Tokens tile the text: the blanks and the source texts of the tokens, put one behind the other, are
the text that was read, and every token stands where its text does.
-/
namespace Sigil

open LexicalRule (quote)

def Position.behind (text : List Char) : Position :=
  ⟨1 + text.count '\n', 1 + (text.reverse.takeWhile (· ≠ '\n')).length⟩

theorem Position.start_after (text : List Char) : start.after text = behind text := by
  induction text using List.reverseRecOn with
  | nil => rfl
  | append_singleton text c ih =>
    have hadvance : start.after (text ++ [c]) = (behind text).advance c := by
      rw [after_append, ih]
      rfl
    rw [hadvance]
    by_cases hc : c = '\n'
    · simp [advance, behind, hc, Nat.add_assoc]
    · simp [advance, behind, hc, Nat.add_comm]

theorem Position.behind_after (a b : List Char) : (behind a).after b = behind (a ++ b) := by
  rw [← start_after, ← start_after, after_append]

def Token.source (t : Token) : List Char :=
  if t.kind = .string then quote :: (t.lexeme.toList ++ [quote]) else t.lexeme.toList

/-- Behind the text before, the rest of the text consists of blanks and of the texts of the tokens,
up to the end of input. -/
inductive Tiles : List Char → List Char → List Token → Prop
  | finish {before blanks : List Char} (hblanks : ∀ c ∈ blanks, Text.isBlank c) :
      Tiles before blanks [⟨.eof, "", .behind (before ++ blanks)⟩]
  | token {before blanks text : List Char} {t : Token} {ts : List Token}
      (hblanks : ∀ c ∈ blanks, Text.isBlank c) (hkind : t.kind ≠ .eof) (hsource : t.source ≠ [])
      (hquote : t.kind = .string → quote ∉ t.lexeme.toList)
      (hposition : t.position = .behind (before ++ blanks))
      (h : Tiles (before ++ blanks ++ t.source) text ts) :
      Tiles before (blanks ++ t.source ++ text) (t :: ts)

namespace LexicalRule

variable {text : List Char} {m : Kind × Nat}

structure Fits (text : List Char) (m : Kind × Nat) : Prop where
  kind : m.1 ≠ .eof
  quoted : m.1 = .string →
    ∃ content, quote ∉ content ∧ text.take m.2 = quote :: (content ++ [quote])

theorem Spells.fits (h : Spells text m) : Fits text m := by
  obtain ⟨x, rest, rfl, hlength, hword⟩ := h
  refine ⟨hword.kind_ne_eof, fun hs => ?_⟩
  rw [hlength, List.take_left]
  exact hword.quoted hs

theorem fits_of_longest (h : longest all text = some m) : Fits text m := (spells_of_longest h).fits

end LexicalRule

/-- The lexeme of a string leaves out the quotes, and nothing else. -/
theorem LexicalRule.Fits.source {text : List Char} {m : Kind × Nat} (h : Fits text m)
    (position : Position) :
    Token.source ⟨m.1, Cursor.lexeme m.1 (text.take m.2), position⟩ = text.take m.2 := by
  by_cases hs : m.1 = .string
  · obtain ⟨content, -, htake⟩ := h.quoted hs
    simp [Token.source, Cursor.lexeme, hs, htake]
  · simp [Token.source, Cursor.lexeme, hs]

theorem LexicalRule.Fits.no_quote {text : List Char} {m : Kind × Nat} (h : Fits text m)
    (hs : m.1 = .string) : quote ∉ (Cursor.lexeme m.1 (text.take m.2)).toList := by
  obtain ⟨content, hcontent, htake⟩ := h.quoted hs
  simpa [Cursor.lexeme, hs, htake] using hcontent

namespace Cursor

variable {s : Cursor} {before : List Char}

theorem exists_blanks (h : s.position = .behind before) :
    ∃ blanks, (∀ c ∈ blanks, Text.isBlank c) ∧ s.text = blanks ++ s.skipBlanks.text ∧
      s.skipBlanks.position = .behind (before ++ blanks) := by
  have hfront : s.text.takeWhile Text.isBlank <+: s.text := List.takeWhile_prefix _
  refine ⟨s.text.takeWhile Text.isBlank, fun _ => forall_takeWhile,
    (List.prefix_iff_eq_append.1 hfront).symm, ?_⟩
  simp only [skipBlanks, advance]
  rw [take_takeWhile, h, Position.behind_after]

theorem token_of_end (h : s.skipBlanks.text = []) :
    s.token = (⟨.eof, "", s.skipBlanks.position⟩, s.skipBlanks) := if_pos h

theorem exists_fits (h : s.skipBlanks.text ≠ []) :
    ∃ m, LexicalRule.Fits s.skipBlanks.text m ∧ 0 < m.2 ∧
      s.token = (⟨m.1, lexeme m.1 (s.skipBlanks.text.take m.2), s.skipBlanks.position⟩,
        s.skipBlanks.advance m.2) := by
  have htoken : s.token =
      let m := (LexicalRule.longest LexicalRule.all s.skipBlanks.text).getD (.illegal, 1)
      (⟨m.1, lexeme m.1 (s.skipBlanks.text.take m.2), s.skipBlanks.position⟩,
        s.skipBlanks.advance m.2) := if_neg h
  cases hm : LexicalRule.longest LexicalRule.all s.skipBlanks.text with
  | none =>
    rw [hm] at htoken
    exact ⟨(.illegal, 1), ⟨by decide, nofun⟩, Nat.one_pos, htoken⟩
  | some m =>
    rw [hm] at htoken
    exact ⟨m, LexicalRule.fits_of_longest hm, LexicalRule.longest_pos (fun _ h => h) hm, htoken⟩

/-- Only blanks stand in front of the end of input. -/
theorem end_of_token (h : s.token.1.kind = .eof) : s.skipBlanks.text = [] := by
  refine Decidable.byContradiction fun hne => ?_
  obtain ⟨m, hm, -, htoken⟩ := exists_fits hne
  rw [htoken] at h
  exact hm.kind h

theorem tiles_end (h : s.position = .behind before) (hkind : s.token.1.kind = .eof) :
    Tiles before s.text [s.token.1] := by
  obtain ⟨blanks, hblanks, htext, hposition⟩ := exists_blanks h
  have hend := end_of_token hkind
  rw [hend, List.append_nil] at htext
  rw [token_of_end hend, htext, hposition]
  exact .finish hblanks

theorem tiles_cons {ts : List Token} (h : s.position = .behind before)
    (hkind : s.token.1.kind ≠ .eof)
    (hts : ∀ x, s.token.2.position = .behind x → Tiles x s.token.2.text ts) :
    Tiles before s.text (s.token.1 :: ts) := by
  obtain ⟨blanks, hblanks, htext, hposition⟩ := exists_blanks h
  have hne : s.skipBlanks.text ≠ [] := fun hend => hkind (by rw [token_of_end hend])
  obtain ⟨m, hm, hpos, htoken⟩ := exists_fits hne
  have hsource := hm.source s.skipBlanks.position
  have hsome : s.skipBlanks.text.take m.2 ≠ [] := fun hnil =>
    (List.take_eq_nil_iff.1 hnil).elim (Nat.ne_of_gt hpos) hne
  have hrest := hts (before ++ blanks ++ s.skipBlanks.text.take m.2) (by
    rw [htoken, ← Position.behind_after, ← hposition]
    rfl)
  have hsplit : s.text = blanks ++ s.skipBlanks.text.take m.2 ++ s.skipBlanks.text.drop m.2 := by
    rw [List.append_assoc, List.take_append_drop, ← htext]
  rw [htoken] at hrest ⊢
  rw [hsplit]
  nth_rewrite 1 [← hsource]
  exact .token hblanks hm.kind (hsource.symm ▸ hsome) hm.no_quote hposition (hsource.symm ▸ hrest)

theorem tiles_tokens (h : s.position = .behind before) : Tiles before s.text s.tokens := by
  fun_induction tokens s generalizing before with
  | case1 s hkind => exact tiles_end h hkind
  | case2 s hkind ih => exact tiles_cons h hkind fun _ => ih

end Cursor

variable {source : String}

theorem tokenize_eq_ok_iff {ts : List Token} : tokenize source = .ok ts ↔
    ts = (Cursor.ofSource source).tokens ∧ ∀ t ∈ ts, t.kind ≠ .illegal := by
  unfold tokenize
  simp only
  cases hfind : (Cursor.ofSource source).tokens.find? (·.kind = .illegal) with
  | none =>
    have hlegal : ∀ t ∈ (Cursor.ofSource source).tokens, t.kind ≠ .illegal := by
      simpa using hfind
    constructor
    · rintro ⟨⟩
      exact ⟨rfl, hlegal⟩
    · rintro ⟨rfl, -⟩
      rfl
  | some t =>
    have hkind : t.kind = .illegal := by simpa using List.find?_some hfind
    constructor
    · nofun
    · rintro ⟨rfl, hlegal⟩
      exact absurd hkind (hlegal t (List.mem_of_find?_eq_some hfind))

theorem tokenize_eq_error_iff {e : LexicalError} : tokenize source = .error e ↔
    ∃ a t b, (Cursor.ofSource source).tokens = a ++ t :: b ∧ (∀ u ∈ a, u.kind ≠ .illegal) ∧
      t.kind = .illegal ∧ e = ⟨t.lexeme, t.position⟩ := by
  have hfind : ∀ t, (Cursor.ofSource source).tokens.find? (·.kind = .illegal) = some t ↔
      ∃ a b, (Cursor.ofSource source).tokens = a ++ t :: b ∧ (∀ u ∈ a, u.kind ≠ .illegal) ∧
        t.kind = .illegal := by
    intro t
    rw [List.find?_eq_some_iff_append]
    simp only [decide_eq_true_eq, Bool.not_eq_true', decide_eq_false_iff_not]
    constructor
    · rintro ⟨hkind, a, b, htokens, ha⟩
      exact ⟨a, b, htokens, ha, hkind⟩
    · rintro ⟨a, b, htokens, ha, hkind⟩
      exact ⟨hkind, a, b, htokens, ha⟩
  unfold tokenize
  simp only
  constructor
  · intro h
    cases ht : (Cursor.ofSource source).tokens.find? (·.kind = .illegal) with
    | none =>
      rw [ht] at h
      cases h
    | some t =>
      rw [ht] at h
      cases h
      obtain ⟨a, b, htokens, ha, hkind⟩ := (hfind t).1 ht
      exact ⟨a, t, b, htokens, ha, hkind, rfl⟩
  · rintro ⟨a, t, b, htokens, ha, hkind, rfl⟩
    rw [(hfind t).2 ⟨a, b, htokens, ha, hkind⟩]

/-- Any text is tiled by its tokens, illegal ones among them, and refused at the first of those. -/
theorem tokens_tile (source : String) :
    Tiles [] source.toList (Cursor.ofSource source).tokens ∧
      (∀ ts, tokenize source = .ok ts ↔
        ts = (Cursor.ofSource source).tokens ∧ ∀ t ∈ ts, t.kind ≠ .illegal) ∧
      ∀ e, tokenize source = .error e ↔
        ∃ a t b, (Cursor.ofSource source).tokens = a ++ t :: b ∧ (∀ u ∈ a, u.kind ≠ .illegal) ∧
          t.kind = .illegal ∧ e = ⟨t.lexeme, t.position⟩ :=
  have htiles : Tiles [] (Cursor.ofSource source).text _ := Cursor.tiles_tokens rfl
  ⟨htiles, fun _ => tokenize_eq_ok_iff, fun _ => tokenize_eq_error_iff⟩

example : (Cursor.ofSource "é 'a\nb' 1.").tokens =
    [⟨.illegal, "é", ⟨1, 1⟩⟩, ⟨.string, "a\nb", ⟨1, 3⟩⟩, ⟨.illegal, "1.", ⟨2, 4⟩⟩,
      ⟨.eof, "", ⟨2, 6⟩⟩] := by
  decide +kernel

end Sigil
