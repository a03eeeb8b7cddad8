import Sigil.Proofs.Tokens.Tiling

/-! Texts that are read as certain tokens, whatever their position, and how such texts combine. -/
namespace Sigil

open LexicalRule (isNamePart quote)

variable {P Q : List Token → Prop} {a b rest : List Char}

def Reads (Q : List Token → Prop) (text rest : List Char) : Prop :=
  ∀ position, ∃ ts position', Q ts ∧
    Cursor.tokens ⟨position, text ++ rest⟩ = ts ++ Cursor.tokens ⟨position', rest⟩

def Delimited (rest : List Char) : Prop :=
  ∀ c, rest.head? = some c → c = ' ' ∨ c = ')' ∨ c = '\x7d' ∨ c = '\n'

theorem delimited_nil : Delimited [] := nofun

theorem delimited_cons {c : Char} (hc : c = ' ' ∨ c = ')' ∨ c = '\x7d' ∨ c = '\n') :
    Delimited (c :: rest) := by
  rintro d ⟨⟩
  exact hc

theorem tokens_congr {s s' : Cursor} (h : s.token = s'.token) : s.tokens = s'.tokens := by
  rw [Cursor.tokens.eq_1 s, Cursor.tokens.eq_1 s', h]

theorem tokens_nil (position : Position) :
    Cursor.tokens ⟨position, []⟩ = [⟨.eof, "", position⟩] := by
  have htoken : (Cursor.token ⟨position, []⟩).1 = ⟨.eof, "", position⟩ := rfl
  rw [Cursor.tokens]
  simp only [htoken, dite_true]

theorem tokens_blank {c : Char} (hc : Text.isBlank c = true) (position : Position) :
    Cursor.tokens ⟨position, c :: rest⟩ = Cursor.tokens ⟨position.advance c, rest⟩ := by
  apply tokens_congr
  have hskip : Cursor.skipBlanks ⟨position, c :: rest⟩ =
      Cursor.skipBlanks ⟨position.advance c, rest⟩ := by
    simp [Cursor.skipBlanks, Cursor.advance, List.takeWhile_cons_of_pos hc, Position.after]
  unfold Cursor.token
  rw [hskip]

theorem tokens_text {c : Char} {kind : Kind} (hc : Text.isBlank c = false) (hkind : kind ≠ .eof)
    (h : LexicalRule.longest LexicalRule.all (c :: a ++ rest) = some (kind, (c :: a).length))
    (position : Position) :
    Cursor.tokens ⟨position, c :: a ++ rest⟩ =
      ⟨kind, Cursor.lexeme kind (c :: a), position⟩ ::
        Cursor.tokens ⟨position.after (c :: a), rest⟩ := by
  have htoken : Cursor.token ⟨position, c :: a ++ rest⟩ =
      (⟨kind, Cursor.lexeme kind (c :: a), position⟩, ⟨position.after (c :: a), rest⟩) :=
    token_of_longest hc rfl (congrArg (·.getD (.illegal, 1)) h) position
  rw [Cursor.tokens]
  simp only [htoken, hkind, dite_false]

theorem reads_nil (h : Q []) : Reads Q [] rest := fun position => ⟨[], position, h, rfl⟩

theorem Reads.mono (h : Reads P a rest) (hpq : ∀ ts, P ts → Q ts) : Reads Q a rest := by
  intro position
  obtain ⟨ts, position', hts, h⟩ := h position
  exact ⟨ts, position', hpq ts hts, h⟩

/-- A text that is read as legal tokens up to its end is accepted with them. -/
theorem Reads.tokenize {source : String} (h : Reads Q source.toList [])
    (hlegal : ∀ ts, Q ts → ∀ t ∈ ts, t.kind ≠ .illegal) :
    ∃ ts position, Sigil.tokenize source = .ok (ts ++ [⟨.eof, "", position⟩]) ∧ Q ts := by
  obtain ⟨ts, position, hts, htokens⟩ := h .start
  rw [List.append_nil, tokens_nil] at htokens
  refine ⟨ts, position, tokenize_eq_ok_iff.2 ⟨htokens.symm, ?_⟩, hts⟩
  exact List.forall_mem_append.2 ⟨hlegal ts hts, by simp⟩

theorem Reads.append (ha : Reads P a (b ++ rest)) (hb : Reads Q b rest) :
    Reads (fun ts => ∃ x y, ts = x ++ y ∧ P x ∧ Q y) (a ++ b) rest := by
  intro position
  obtain ⟨x, position', hx, h⟩ := ha position
  obtain ⟨y, position'', hy, h'⟩ := hb position'
  refine ⟨x ++ y, position'', ⟨x, y, rfl, hx, hy⟩, ?_⟩
  rw [List.append_assoc, h, h', List.append_assoc]

theorem reads_blank {c : Char} (hc : Text.isBlank c = true) (h : Reads Q a rest) :
    Reads Q (c :: a) rest := by
  intro position
  obtain ⟨ts, position', hts, h⟩ := h (position.advance c)
  exact ⟨ts, position', hts, (tokens_blank hc position).trans h⟩

theorem reads_blanks {blanks : List Char} (hblanks : ∀ c ∈ blanks, Text.isBlank c)
    (h : Reads Q a rest) : Reads Q (blanks ++ a) rest := by
  induction blanks with
  | nil => exact h
  | cons c blanks ih =>
    obtain ⟨hc, hblanks⟩ := List.forall_mem_cons.1 hblanks
    exact reads_blank hc (ih hblanks)

/-- Blanks are no visible ASCII characters. -/
theorem isBlank_eq_false {c : Char} (hlow : 33 ≤ c.toNat) (hhigh : c.toNat ≤ 126) :
    Text.isBlank c = false := by
  simp only [Text.isBlank, Text.blankRanges, List.any_cons, List.any_nil, Bool.or_false,
    Bool.or_eq_false_iff, decide_eq_false_iff_not, not_and]
  omega

theorem isBlank_of_isAlpha {c : Char} (h : c.isAlpha = true) : Text.isBlank c = false := by
  unfold Char.isAlpha Char.isUpper Char.isLower at h
  simp only [Bool.and_eq_true, Bool.or_eq_true, decide_eq_true_eq, ge_iff_le,
    UInt32.le_iff_toNat_le] at h
  have hA : 'A'.val.toNat = 65 := rfl
  have hz : 'z'.val.toNat = 122 := rfl
  have hZ : 'Z'.val.toNat = 90 := rfl
  have ha : 'a'.val.toNat = 97 := rfl
  have hc : c.toNat = c.val.toNat := rfl
  exact isBlank_eq_false (by omega) (by omega)

theorem isBlank_of_isDigit {c : Char} (h : c.isDigit = true) : Text.isBlank c = false := by
  simp only [Char.isDigit, Bool.and_eq_true, decide_eq_true_eq, ge_iff_le,
    UInt32.le_iff_toNat_le] at h
  have h0 : '0'.val.toNat = 48 := rfl
  have h9 : '9'.val.toNat = 57 := rfl
  have hc : c.toNat = c.val.toNat := rfl
  exact isBlank_eq_false (by omega) (by omega)

theorem symbol_text : ∀ kind ∈ Kind.symbols, kind ≠ .eof ∧
    ∃ c tail, kind.text.toList = c :: tail ∧ Text.isBlank c = false := by
  intro kind hk
  have h : ∀ k ∈ Kind.symbols, k ≠ .eof ∧ k.text.toList.head?.any (fun c => !Text.isBlank c) = true := by
    decide
  obtain ⟨heof, hhead⟩ := h kind hk
  cases htext : kind.text.toList with
  | nil =>
    rw [htext] at hhead
    cases hhead
  | cons c tail =>
    rw [htext] at hhead
    exact ⟨heof, c, tail, rfl, by simpa using hhead⟩

theorem Reads.cons {kind : Kind} {lexeme : String} {text : List Char}
    (h : ∀ position, ∃ position', Cursor.tokens ⟨position, text ++ (a ++ rest)⟩ =
      ⟨kind, lexeme, position⟩ :: Cursor.tokens ⟨position', a ++ rest⟩) (ha : Reads Q a rest) :
    Reads (fun ts => ∃ t us, ts = t :: us ∧ t.kind = kind ∧ t.lexeme = lexeme ∧ Q us) (text ++ a)
      rest := by
  intro position
  obtain ⟨position', h⟩ := h position
  obtain ⟨us, position'', hus, h'⟩ := ha position'
  refine ⟨⟨kind, lexeme, position⟩ :: us, position'', ⟨_, us, rfl, rfl, rfl, hus⟩, ?_⟩
  rw [List.append_assoc, h, h', List.cons_append]

/-- A symbol is read with the text it has. -/
theorem reads_symbol_text {kind : Kind} (hk : kind ∈ Kind.symbols)
    (hrest : ∀ c, (a ++ rest).head? = some c → kind.extends c = false) (h : Reads Q a rest) :
    Reads (fun ts => ∃ t us, ts = t :: us ∧ t.kind = kind ∧ t.lexeme = kind.text ∧ Q us)
      (kind.text.toList ++ a) rest := by
  obtain ⟨heof, c, tail, htext, hc⟩ := symbol_text kind hk
  have hlexeme : Cursor.lexeme kind (c :: tail) = kind.text := htext ▸ lexeme_symbol hk
  have hlongest := LexicalRule.longest_symbol hk hrest
  rw [htext, ← String.length_toList, htext] at hlongest
  have htokens := tokens_text hc heof hlongest
  rw [hlexeme] at htokens
  rw [htext]
  exact Reads.cons (fun position => ⟨_, htokens position⟩) h

theorem reads_symbol {kind : Kind} (hk : kind ∈ Kind.symbols)
    (hrest : ∀ c, (a ++ rest).head? = some c → kind.extends c = false) (h : Reads Q a rest) :
    Reads (fun ts => ∃ t us, ts = t :: us ∧ t.kind = kind ∧ Q us) (kind.text.toList ++ a) rest := by
  refine (reads_symbol_text hk hrest h).mono ?_
  rintro ts ⟨t, us, hts, ht, -, hus⟩
  exact ⟨t, us, hts, ht, hus⟩

theorem reads_name {name : String} (hn : IsName name)
    (hrest : ∀ c, (a ++ rest).head? = some c → isNamePart c = false) (h : Reads Q a rest) :
    Reads (fun ts => ∃ t us, ts = t :: us ∧ t.kind = .identifier ∧ t.lexeme = name ∧ Q us)
      (name.toList ++ a) rest := by
  obtain ⟨c, tail, rfl, hc, htail⟩ := hn
  have hlongest := LexicalRule.longest_identifier hc
    (fun d hd => by simpa [isNamePart] using htail d hd) hrest
  rw [String.toList_ofList]
  exact Reads.cons
    (fun position => ⟨_, tokens_text (isBlank_of_isAlpha hc) (by decide) hlongest position⟩) h

theorem reads_string {s : String} (hs : quote ∉ s.toList) (h : Reads Q a rest) :
    Reads (fun ts => ∃ t us, ts = t :: us ∧ t.kind = .string ∧ t.lexeme = s ∧ Q us)
      (quote :: (s.toList ++ quote :: a)) rest := by
  have hlongest : LexicalRule.longest LexicalRule.all (quote :: (s.toList ++ quote :: (a ++ rest))) =
      _ := LexicalRule.longest_string hs
  have htext : quote :: (s.toList ++ quote :: a) = (quote :: (s.toList ++ [quote])) ++ a := by simp
  have hlexeme : Cursor.lexeme .string (quote :: (s.toList ++ [quote])) = s := by
    simp [Cursor.lexeme]
  have htext' : quote :: (s.toList ++ quote :: (a ++ rest)) =
      quote :: (s.toList ++ [quote]) ++ (a ++ rest) := by simp
  have hlength : s.toList.length + 2 = (quote :: (s.toList ++ [quote])).length := by simp
  rw [htext', hlength] at hlongest
  rw [htext]
  have htokens := tokens_text (rfl : Text.isBlank quote = false) (by decide) hlongest
  rw [hlexeme] at htokens
  exact Reads.cons (fun position => ⟨_, htokens position⟩) h

theorem reads_number {text w f : List Char} (hn : Number.Numeral text w f)
    (hrest : ∀ c, (a ++ rest).head? = some c → c.isDigit = false ∧ c ≠ '.') (h : Reads Q a rest) :
    Reads (fun ts => ∃ t us, ts = t :: us ∧ t.kind = .number ∧ t.lexeme = String.ofList text ∧ Q us)
      (text ++ a) rest := by
  have hlongest := LexicalRule.longest_number hn hrest
  obtain ⟨c, tail, rfl, hc⟩ := hn.head
  exact Reads.cons
    (fun position => ⟨_, tokens_text (isBlank_of_isDigit hc) (by decide) hlongest position⟩) h

end Sigil
