import Mathlib.Data.List.TakeWhile
import Sigil.Proofs.Printing.Lexeme

/-!
The words of the language. What a lexical rule takes from the front of a text is one of them, and so is
what a token stands for, unless it is illegal or the end of input.
-/
namespace Sigil

open LexicalRule (quote)

/-- What the language has words for, in front of the rest of a text. Digits with a point but no digit
behind it are a word of their own, which is illegal, and so is a quote with no other behind it. -/
inductive Lexeme (rest : List Char) : Kind → List Char → Prop
  | symbol {kind : Kind} (hk : kind ∈ Kind.symbols) : Lexeme rest kind kind.text.toList
  | identifier {name : String} (hn : IsName name) : Lexeme rest .identifier name.toList
  | string {content : List Char} (hc : quote ∉ content) :
      Lexeme rest .string (quote :: (content ++ [quote]))
  | number {text w f : List Char} (hn : Number.Numeral text w f) : Lexeme rest .number text
  | dangling {w : List Char} (hne : w ≠ []) (hw : ∀ c ∈ w, c.isDigit)
      (hrest : ∀ c, rest.head? = some c → c.isDigit = false) : Lexeme rest .illegal (w ++ ['.'])
  | unclosed {content : List Char} (hc : quote ∉ content) (hrest : rest = []) :
      Lexeme rest .illegal (quote :: content)

namespace Lexeme

variable {kind : Kind} {x rest : List Char}

theorem kind_ne_eof (h : Lexeme rest kind x) : kind ≠ .eof := by
  have hsymbols : ∀ k ∈ Kind.symbols, k ≠ .eof := by decide
  cases h with
  | symbol hk => exact hsymbols kind hk
  | identifier | string | number | dangling | unclosed => decide

theorem quoted (h : Lexeme rest kind x) (hs : kind = .string) :
    ∃ content, quote ∉ content ∧ x = quote :: (content ++ [quote]) := by
  have hsymbols : ∀ k ∈ Kind.symbols, k ≠ .string := by decide
  cases h with
  | symbol hk => exact absurd hs (hsymbols kind hk)
  | string hc => exact ⟨_, hc, rfl⟩
  | identifier | number | dangling | unclosed => cases hs

end Lexeme

namespace LexicalRule

variable {rule : LexicalRule} {kind : Kind} {text : List Char} {m : Kind × Nat}

def Spells (text : List Char) (m : Kind × Nat) : Prop :=
  ∃ x rest, text = x ++ rest ∧ m.2 = x.length ∧ Lexeme rest m.1 x

theorem spells_symbol (hk : kind ∈ Kind.symbols) (h : symbol kind text = some m) : Spells text m := by
  obtain ⟨rfl, rest, rfl⟩ := symbol_eq_some h
  exact ⟨_, rest, rfl, String.length_toList.symm, .symbol hk⟩

theorem spells_identifier (h : identifier text = some m) : Spells text m := by
  cases text with
  | nil => cases h
  | cons c text =>
    simp only [identifier] at h
    split at h
    case isFalse => cases h
    case isTrue hc =>
      cases h
      have hn : IsName (String.ofList (c :: text.takeWhile isNamePart)) :=
        ⟨c, _, rfl, hc, fun d hd => by simpa [isNamePart] using forall_takeWhile hd⟩
      have hword : Lexeme (text.dropWhile isNamePart) .identifier _ := .identifier hn
      rw [String.toList_ofList] at hword
      refine ⟨_, _, ?_, ?_, hword⟩
      · rw [List.cons_append, List.takeWhile_append_dropWhile]
      · exact Nat.add_comm _ _

/-- Up to the first quote, if there is one. -/
theorem exists_of_quote_lt (h : (text.takeWhile (· ≠ quote)).length < text.length) :
    ∃ content rest, quote ∉ content ∧ text = content ++ quote :: rest ∧
      text.takeWhile (· ≠ quote) = content := by
  have htext := List.takeWhile_append_dropWhile (p := fun c => decide (c ≠ quote)) (l := text)
  have hhead := List.head?_dropWhile_not (fun c => decide (c ≠ quote)) text
  cases hdrop : text.dropWhile (fun c => decide (c ≠ quote)) with
  | nil =>
    rw [hdrop, List.append_nil] at htext
    rw [htext] at h
    exact absurd h (Nat.lt_irrefl _)
  | cons c rest =>
    rw [hdrop] at htext hhead
    obtain rfl : c = quote := by simpa using hhead
    refine ⟨_, rest, fun hq => ?_, htext.symm, rfl⟩
    simpa using forall_takeWhile hq

theorem spells_string (h : string text = some m) : Spells text m := by
  cases text with
  | nil => cases h
  | cons c text =>
    simp only [string] at h
    split at h
    case isFalse => cases h
    case isTrue hc =>
      subst hc
      split at h
      case isTrue hlt =>
        cases h
        obtain ⟨content, rest, hcontent, rfl, htake⟩ := exists_of_quote_lt hlt
        rw [htake]
        exact ⟨_, rest, by simp, by simp, .string hcontent⟩
      case isFalse hle =>
        cases h
        have hall : text.takeWhile (· ≠ quote) = text :=
          (List.takeWhile_prefix _).eq_of_length_le (Nat.le_of_not_lt hle)
        have hcontent : quote ∉ text := fun hq => by
          rw [← hall] at hq
          simpa using forall_takeWhile hq
        rw [hall]
        exact ⟨_, [], (List.append_nil _).symm, rfl, .unclosed hcontent rfl⟩

/-- The digits at the front of a text, and what stands behind them. -/
theorem digits_split (text : List Char) :
    (∀ c ∈ text.takeWhile Char.isDigit, c.isDigit) ∧
      text = text.takeWhile Char.isDigit ++ text.drop (text.takeWhile Char.isDigit).length :=
  ⟨fun _ => forall_takeWhile, (List.prefix_iff_eq_append.1 (List.takeWhile_prefix _)).symm⟩

theorem spells_number (h : number text = some m) : Spells text m := by
  obtain ⟨hw, hsplit⟩ := digits_split text
  unfold number at h
  simp only at h
  split at h
  case isTrue => cases h
  case isFalse hne =>
    split at h
    case h_1 after hafter =>
      rw [hafter] at hsplit
      split at h
      case isTrue hnone =>
        cases h
        refine ⟨_, after, ?_, ?_, .dangling hne hw ?_⟩
        · rw [List.append_assoc]
          exact hsplit
        · simp
        · intro c hc
          cases after with
          | nil => cases hc
          | cons d after =>
            cases hc
            simpa using hnone
      case isFalse hfne =>
        cases h
        obtain ⟨hf, hsplit'⟩ := digits_split after
        refine ⟨_, after.drop (after.takeWhile Char.isDigit).length, ?_, ?_,
          .number (.pointed hne hw hfne hf)⟩
        · rw [List.append_assoc, List.cons_append, ← hsplit']
          exact hsplit
        · simp [Nat.add_comm, Nat.add_left_comm]
    case h_2 =>
      cases h
      exact ⟨_, _, hsplit, rfl, .number (.whole hne hw)⟩

theorem spells_of_mem (hr : rule ∈ all) (h : rule text = some m) : Spells text m := by
  rcases mem_all_iff.1 hr with ⟨kind, hk, rfl⟩ | rfl | rfl | rfl
  · exact spells_symbol hk h
  · exact spells_identifier h
  · exact spells_string h
  · exact spells_number h

theorem spells_of_longest (h : longest all text = some m) : Spells text m := by
  obtain ⟨rule, hr, hrule⟩ := exists_of_longest h
  exact spells_of_mem hr hrule

end LexicalRule

inductive Token.Legal : Token → Prop
  | symbol {kind : Kind} {position : Position} (hk : kind ∈ Kind.symbols) :
      Legal ⟨kind, kind.text, position⟩
  | identifier {name : String} {position : Position} (hn : IsName name) :
      Legal ⟨.identifier, name, position⟩
  | number {text w f : List Char} {position : Position} (hn : Number.Numeral text w f) :
      Legal ⟨.number, String.ofList text, position⟩
  | string {content : String} {position : Position} (hc : quote ∉ content.toList) :
      Legal ⟨.string, content, position⟩

theorem Token.Legal.kind_ne_illegal {t : Token} (h : t.Legal) : t.kind ≠ .illegal := by
  have hsymbols : ∀ k ∈ Kind.symbols, k ≠ .illegal := by decide
  cases h with
  | symbol hk => exact hsymbols _ hk
  | identifier | number | string => nofun

theorem Lexeme.legal {kind : Kind} {x rest : List Char} (h : Lexeme rest kind x)
    (hlegal : kind ≠ .illegal) (position : Position) :
    Token.Legal ⟨kind, Cursor.lexeme kind x, position⟩ := by
  cases h with
  | symbol hk =>
    rw [lexeme_symbol hk]
    exact .symbol hk
  | @identifier name hn =>
    have hlexeme : Cursor.lexeme .identifier name.toList = name := String.ofList_toList
    rw [hlexeme]
    exact .identifier hn
  | @string content hc =>
    have hlexeme : Cursor.lexeme .string (quote :: (content ++ [quote])) = String.ofList content := by
      simp [Cursor.lexeme]
    rw [hlexeme]
    exact .string (by rwa [String.toList_ofList])
  | number hn => exact .number hn
  | dangling | unclosed => exact absurd rfl hlegal

/-- In front of no blank, the token is what the longest match takes. -/
theorem token_of_longest {c : Char} {text x rest : List Char} {kind : Kind}
    (hc : Text.isBlank c = false) (htext : c :: text = x ++ rest)
    (h : (LexicalRule.longest LexicalRule.all (c :: text)).getD (.illegal, 1) = (kind, x.length))
    (position : Position) :
    Cursor.token ⟨position, c :: text⟩ =
      (⟨kind, Cursor.lexeme kind x, position⟩, ⟨position.after x, rest⟩) := by
  have hskip : Cursor.skipBlanks ⟨position, c :: text⟩ = ⟨position, c :: text⟩ := by
    simp [Cursor.skipBlanks, Cursor.advance, hc, Position.after]
  unfold Cursor.token
  rw [hskip]
  simp only [h, reduceCtorEq, if_false, Cursor.advance]
  rw [htext, List.take_left, List.drop_left]

theorem legal_token {s : Cursor} (heof : s.token.1.kind ≠ .eof) (hlegal : s.token.1.kind ≠ .illegal) :
    s.token.1.Legal := by
  unfold Cursor.token at heof hlegal ⊢
  simp only at heof hlegal ⊢
  split
  case isTrue hend => exact absurd (by rw [if_pos hend]) heof
  case isFalse hne =>
    rw [if_neg hne] at hlegal
    cases h : LexicalRule.longest LexicalRule.all s.skipBlanks.text with
    | none =>
      rw [h] at hlegal
      exact absurd rfl hlegal
    | some m =>
      rw [h] at hlegal
      obtain ⟨x, rest, htext, hlength, hword⟩ := LexicalRule.spells_of_longest h
      have hx : s.skipBlanks.text.take m.2 = x := by rw [htext, hlength, List.take_left]
      have htoken := hword.legal hlegal s.skipBlanks.position
      rw [← hx] at htoken
      exact htoken

end Sigil
