import Sigil.Token.Basic
import Sigil.Text.Blank

/-!
Reading tokens off a text. Every lexical rule says how many characters it takes from the front;
the rule that takes most gives the token, and a character that no rule takes is illegal by itself.
-/
namespace Sigil

/-- The kind and the number of characters taken, if the rule applies. -/
abbrev LexicalRule := List Char → Option (Kind × Nat)

namespace LexicalRule

def symbol (kind : Kind) : LexicalRule := fun text =>
  if kind.text.toList.isPrefixOf text then some (kind, kind.text.length) else none

def isLetter (c : Char) : Bool := c.isAlpha

def isNamePart (c : Char) : Bool := c.isAlphanum || c = '_'

def identifier : LexicalRule
  | [] => none
  | c :: text =>
    if isLetter c then some (.identifier, 1 + (text.takeWhile isNamePart).length) else none

def quote : Char := '\x27'

def string : LexicalRule
  | [] => none
  | c :: text =>
    if c = quote then
      let content := text.takeWhile (· ≠ quote)
      if content.length < text.length then some (.string, content.length + 2)
      else some (.illegal, content.length + 1)
    else none

def number : LexicalRule := fun text =>
  let whole := text.takeWhile Char.isDigit
  if whole = [] then none
  else
    match text.drop whole.length with
    | '.' :: rest =>
      let fraction := rest.takeWhile Char.isDigit
      if fraction = [] then some (.illegal, whole.length + 1)
      else some (.number, whole.length + 1 + fraction.length)
    | _ => some (.number, whole.length)

def all : List LexicalRule := Kind.symbols.map symbol ++ [identifier, string, number]

def longer (best next : Option (Kind × Nat)) : Option (Kind × Nat) :=
  match best, next with
  | some a, some b => if a.2 < b.2 then some b else some a
  | none, b => b
  | a, none => a

def longest (rules : List LexicalRule) (text : List Char) : Option (Kind × Nat) :=
  rules.foldl (fun best rule => longer best (rule text)) none

theorem pos_of_mem {rule : LexicalRule} (hr : rule ∈ all) {text : List Char} {m : Kind × Nat}
    (h : rule text = some m) : 0 < m.2 := by
  simp only [all, List.mem_append, List.mem_map, List.mem_cons, List.not_mem_nil, or_false] at hr
  rcases hr with ⟨kind, hk, rfl⟩ | rfl | rfl | rfl
  · have hpos : ∀ k ∈ Kind.symbols, 0 < k.text.length := by decide
    simp only [symbol] at h
    split at h
    · cases h; exact hpos kind hk
    · cases h
  · cases text with
    | nil => cases h
    | cons c text =>
      simp only [identifier] at h
      split at h
      · cases h; simp only; omega
      · cases h
  · cases text with
    | nil => cases h
    | cons c text =>
      simp only [string] at h
      split at h
      · split at h <;> cases h <;> simp
      · cases h
  · simp only [number] at h
    split at h
    · cases h
    · rename_i hne
      have : 0 < (text.takeWhile Char.isDigit).length := List.length_pos_iff.2 hne
      split at h
      · split at h <;> cases h <;> simp only <;> omega
      · cases h; exact this

theorem longer_cases (best next : Option (Kind × Nat)) :
    longer best next = best ∨ longer best next = next := by
  unfold longer
  split
  · split <;> simp
  · exact .inr rfl
  · exact .inl rfl

theorem longest_pos {rules : List LexicalRule} (hr : ∀ rule ∈ rules, rule ∈ all)
    {text : List Char} {m : Kind × Nat} (h : longest rules text = some m) : 0 < m.2 := by
  have key : ∀ (rules : List LexicalRule) (best : Option (Kind × Nat)),
      (∀ rule ∈ rules, rule ∈ all) → (∀ m, best = some m → 0 < m.2) →
      ∀ m, rules.foldl (fun best rule => longer best (rule text)) best = some m → 0 < m.2 := by
    intro rules
    induction rules with
    | nil => intro best _ hb m h; exact hb m h
    | cons rule rules ih =>
      intro best hr hb m h
      refine ih _ (fun r hm => hr r (List.mem_cons_of_mem _ hm)) ?_ m h
      intro m hm
      rcases longer_cases best (rule text) with hl | hl
      · exact hb m (hl.symm.trans hm)
      · exact pos_of_mem (hr rule List.mem_cons_self) (hl.symm.trans hm)
  exact key rules none hr (by simp) m h

end LexicalRule

structure Cursor where
  position : Position
  text : List Char
deriving DecidableEq, Repr

namespace Cursor

def ofSource (source : String) : Cursor := ⟨.start, source.toList⟩

def advance (s : Cursor) (n : Nat) : Cursor :=
  ⟨s.position.after (s.text.take n), s.text.drop n⟩

def skipBlanks (s : Cursor) : Cursor := s.advance (s.text.takeWhile Text.isBlank).length

def lexeme (kind : Kind) (taken : List Char) : String :=
  String.ofList (if kind = .string then taken.tail.dropLast else taken)

def token (s : Cursor) : Token × Cursor :=
  let s := s.skipBlanks
  if s.text = [] then (⟨.eof, "", s.position⟩, s)
  else
    let (kind, n) := (LexicalRule.longest LexicalRule.all s.text).getD (.illegal, 1)
    (⟨kind, lexeme kind (s.text.take n), s.position⟩, s.advance n)

theorem length_advance_lt {s : Cursor} {n : Nat} (hn : 0 < n) (hs : s.text ≠ []) :
    (s.advance n).text.length < s.text.length := by
  have := List.length_pos_iff.2 hs
  simp only [advance, List.length_drop]
  omega

theorem length_token_lt {s : Cursor} (h : s.token.1.kind ≠ .eof) :
    s.token.2.text.length < s.text.length := by
  have hskip : s.skipBlanks.text.length ≤ s.text.length := by
    simp [skipBlanks, advance]
  unfold token at h ⊢
  simp only at h ⊢
  split at h
  · exact absurd rfl h
  · rename_i hne
    rw [if_neg hne]
    refine Nat.lt_of_lt_of_le (length_advance_lt ?_ hne) hskip
    cases hm : LexicalRule.longest LexicalRule.all s.skipBlanks.text with
    | none => simp
    | some m => exact LexicalRule.longest_pos (fun _ h => h) hm

def tokens (s : Cursor) : List Token :=
  if _h : s.token.1.kind = .eof then [s.token.1] else s.token.1 :: tokens s.token.2
termination_by s.text.length
decreasing_by exact length_token_lt _h

end Cursor

def tokenize (source : String) : Except LexicalError (List Token) :=
  let tokens := (Cursor.ofSource source).tokens
  match tokens.find? (·.kind = .illegal) with
  | some t => .error ⟨t.lexeme, t.position⟩
  | none => .ok tokens

end Sigil
