import Sigil.Token.Lexer
import Sigil.Proofs.Number.Numeral

/-! Which texts the lexical rules take, one at a time and of all rules the longest. -/
namespace Sigil

def IsName (name : String) : Prop :=
  ∃ c rest, name = String.ofList (c :: rest) ∧ c.isAlpha = true ∧
    ∀ d ∈ rest, d.isAlphanum = true ∨ d = '_'

theorem take_takeWhile {p : Char → Bool} (text : List Char) :
    text.take (text.takeWhile p).length = text.takeWhile p :=
  (List.prefix_iff_eq_take.1 (List.takeWhile_prefix p)).symm

theorem forall_takeWhile {p : Char → Bool} {text : List Char} {c : Char}
    (hc : c ∈ text.takeWhile p) : p c = true :=
  List.all_eq_true.1 List.all_takeWhile c hc

def Kind.extends (kind : Kind) (c : Char) : Bool :=
  Kind.symbols.any fun other => (kind.text.toList ++ [c]).isPrefixOf other.text.toList

/-- The lexeme of a symbol is its text. -/
theorem lexeme_symbol {kind : Kind} (hk : kind ∈ Kind.symbols) :
    Cursor.lexeme kind kind.text.toList = kind.text := by
  have hstring : ∀ k ∈ Kind.symbols, k ≠ .string := by decide
  rw [Cursor.lexeme, if_neg (hstring kind hk), String.ofList_toList]

namespace LexicalRule

open Number (takeWhile_until)

variable {kind : Kind} {text rest : List Char} {m : Kind × Nat}

def Reached (m : Kind × Nat) (other : Option (Kind × Nat)) : Prop :=
  ∀ m', other = some m' → m' = m ∨ m'.2 < m.2

theorem longer_of_left {next : Option (Kind × Nat)} (h : Reached m next) :
    longer (some m) next = some m := by
  cases next with
  | none => rfl
  | some m' =>
    rcases h m' rfl with rfl | hlt
    · exact ite_self (some m')
    · exact if_neg (Nat.not_lt.2 (Nat.le_of_lt hlt))

theorem longer_of_right {best : Option (Kind × Nat)} (h : Reached m best) :
    longer best (some m) = some m := by
  cases best with
  | none => rfl
  | some m' =>
    rcases h m' rfl with rfl | hlt
    · exact ite_self (some m')
    · exact if_pos hlt

theorem foldl_longer {rules : List LexicalRule} {best : Option (Kind × Nat)}
    (hall : ∀ r ∈ rules, Reached m (r text)) (hbest : Reached m best)
    (hsome : best = some m ∨ ∃ r ∈ rules, r text = some m) :
    rules.foldl (fun best rule => longer best (rule text)) best = some m := by
  induction rules generalizing best with
  | nil => simpa using hsome
  | cons r rules ih =>
    have hr := hall r List.mem_cons_self
    refine ih (fun r hmem => hall r (List.mem_cons_of_mem _ hmem)) ?_ ?_
    · intro m' hm'
      rcases longer_cases best (r text) with h | h
      · exact hbest m' (h ▸ hm')
      · exact hr m' (h ▸ hm')
    · rcases hsome with rfl | ⟨r', hmem, hr'⟩
      · exact .inl (longer_of_left hr)
      · rcases List.mem_cons.1 hmem with rfl | hmem
        · refine .inl ?_
          show longer best (r' text) = some m
          rw [hr']
          exact longer_of_right hbest
        · exact .inr ⟨r', hmem, hr'⟩

theorem longest_eq {rules : List LexicalRule} {rule : LexicalRule} (hr : rule ∈ rules)
    (hm : rule text = some m) (hall : ∀ r ∈ rules, Reached m (r text)) :
    longest rules text = some m :=
  foldl_longer hall nofun (.inr ⟨rule, hr, hm⟩)

/-- A match is the longest if no other rule applies. -/
theorem longest_alone {rules : List LexicalRule} {rule : LexicalRule} (hr : rule ∈ rules)
    (hm : rule text = some m) (hothers : ∀ r ∈ rules, r = rule ∨ r text = none) :
    longest rules text = some m := by
  refine longest_eq hr hm fun r hmem m' hm' => ?_
  rcases hothers r hmem with rfl | hnone
  · exact .inl (Option.some.inj (hm'.symm.trans hm))
  · rw [hnone] at hm'
    cases hm'

/-- The longest match is the match of some rule. -/
theorem exists_of_longest {rules : List LexicalRule} (h : longest rules text = some m) :
    ∃ rule ∈ rules, rule text = some m := by
  have key : ∀ best : Option (Kind × Nat),
      rules.foldl (fun best rule => longer best (rule text)) best = some m →
      best = some m ∨ ∃ rule ∈ rules, rule text = some m := by
    clear h
    induction rules with
    | nil => exact fun best h => .inl h
    | cons r rules ih =>
      intro best h
      rcases ih _ h with h | ⟨rule, hmem, hrule⟩
      · rcases longer_cases best (r text) with hl | hl
        · exact .inl (hl ▸ h)
        · exact .inr ⟨r, List.mem_cons_self, hl ▸ h⟩
      · exact .inr ⟨rule, List.mem_cons_of_mem _ hmem, hrule⟩
  exact (key none h).resolve_left nofun

theorem mem_all_iff {rule : LexicalRule} :
    rule ∈ all ↔ (∃ kind ∈ Kind.symbols, rule = symbol kind) ∨ rule = identifier ∨ rule = string ∨
      rule = number := by
  simp only [all, List.mem_append, List.mem_map, List.mem_cons, List.not_mem_nil, or_false]
  constructor
  · rintro (⟨kind, hk, rfl⟩ | h)
    · exact .inl ⟨kind, hk, rfl⟩
    · exact .inr h
  · rintro (⟨kind, hk, rfl⟩ | h)
    · exact .inl ⟨kind, hk, rfl⟩
    · exact .inr h

theorem symbol_eq_some (h : symbol kind text = some m) :
    m = (kind, kind.text.length) ∧ kind.text.toList <+: text := by
  unfold symbol at h
  split at h
  case isTrue hfront =>
    cases h
    exact ⟨rfl, List.isPrefixOf_iff_prefix.1 hfront⟩
  case isFalse => cases h

theorem identifier_nil {c : Char} (hc : c.isAlpha = false) : identifier (c :: rest) = none := by
  simp [identifier, isLetter, hc]

theorem string_nil {c : Char} (hc : c ≠ quote) : string (c :: rest) = none := by
  simp [string, hc]

theorem number_nil {c : Char} (hc : c.isDigit = false) : number (c :: rest) = none := by
  simp [number, hc]

/-- First characters of symbols begin nothing else. -/
theorem symbol_head (hk : kind ∈ Kind.symbols) :
    ∃ c tail, kind.text.toList = c :: tail ∧ c.isAlpha = false ∧ c ≠ quote ∧ c.isDigit = false := by
  have h : ∀ k ∈ Kind.symbols, k.text.toList.head?.any
      (fun c => !c.isAlpha && c ≠ quote && !c.isDigit) = true := by decide
  have hkind := h kind hk
  cases htext : kind.text.toList with
  | nil =>
    rw [htext] at hkind
    cases hkind
  | cons c tail =>
    rw [htext] at hkind
    simp only [List.head?_cons, Option.any_some, Bool.and_eq_true, Bool.not_eq_true',
      decide_eq_true_eq] at hkind
    exact ⟨c, tail, rfl, hkind.1.1, hkind.1.2, hkind.2⟩

/-- No symbol begins with the character. -/
theorem symbol_nil {c : Char} (hk : kind ∈ Kind.symbols)
    (hc : c.isAlpha = true ∨ c = quote ∨ c.isDigit = true) : symbol kind (c :: rest) = none := by
  cases h : symbol kind (c :: rest) with
  | none => rfl
  | some m =>
    obtain ⟨d, tail, htext, h1, h2, h3⟩ := symbol_head hk
    obtain ⟨-, hfront⟩ := symbol_eq_some h
    rw [htext, List.cons_prefix_cons] at hfront
    obtain ⟨rfl, -⟩ := hfront
    simp_all

theorem text_injective : ∀ k ∈ Kind.symbols, ∀ other ∈ Kind.symbols,
    k.text.toList = other.text.toList → k = other := by decide

/-- A longer symbol at the front is a reason to take more. -/
theorem extends_of_front {other : Kind} (hother : other ∈ Kind.symbols)
    (hfront : other.text.toList <+: kind.text.toList ++ rest)
    (hlt : kind.text.toList.length < other.text.toList.length) :
    ∃ c, rest.head? = some c ∧ kind.extends c = true := by
  obtain ⟨more, hmore⟩ :=
    List.prefix_of_prefix_length_le (List.prefix_append _ rest) hfront (Nat.le_of_lt hlt)
  rw [← hmore, List.prefix_append_right_inj] at hfront
  cases more with
  | nil =>
    rw [← hmore, List.append_nil] at hlt
    exact absurd hlt (Nat.lt_irrefl _)
  | cons c more =>
    obtain ⟨tail, htail⟩ := hfront
    refine ⟨c, by rw [← htail]; rfl, List.any_eq_true.2 ⟨other, hother, ?_⟩⟩
    rw [List.isPrefixOf_iff_prefix, ← hmore]
    exact ⟨more, by simp⟩

/-- A symbol is taken whole in front of a character that does not lengthen it. -/
theorem longest_symbol (hk : kind ∈ Kind.symbols)
    (hrest : ∀ c, rest.head? = some c → kind.extends c = false) :
    longest all (kind.text.toList ++ rest) = some (kind, kind.text.length) := by
  have htaken : symbol kind (kind.text.toList ++ rest) = some (kind, kind.text.length) :=
    if_pos (List.isPrefixOf_iff_prefix.2 (List.prefix_append _ _))
  refine longest_eq (mem_all_iff.2 (.inl ⟨kind, hk, rfl⟩)) htaken fun r hr m' hm' => ?_
  obtain ⟨c, tail, htext, hc1, hc2, hc3⟩ := symbol_head hk
  rcases mem_all_iff.1 hr with ⟨other, hother, rfl⟩ | rfl | rfl | rfl
  · obtain ⟨rfl, hfront⟩ := symbol_eq_some hm'
    simp only [← String.length_toList]
    rcases Nat.lt_trichotomy other.text.toList.length kind.text.toList.length with h | h | h
    · exact .inr h
    · have heq := (List.prefix_of_prefix_length_le hfront (List.prefix_append _ _)
        (Nat.le_of_eq h)).eq_of_length h
      rw [text_injective other hother kind hk heq]
      exact .inl rfl
    · exact absurd (extends_of_front hother hfront h) (by simpa using hrest)
  · rw [htext, List.cons_append, identifier_nil hc1] at hm'
    cases hm'
  · rw [htext, List.cons_append, string_nil hc2] at hm'
    cases hm'
  · rw [htext, List.cons_append, number_nil hc3] at hm'
    cases hm'

theorem isDigit_of_isAlpha {c : Char} (h : c.isAlpha = true) : c.isDigit = false := by
  cases hd : c.isDigit with
  | false => rfl
  | true =>
    unfold Char.isAlpha Char.isUpper Char.isLower at h
    simp only [Char.isDigit, Bool.and_eq_true, Bool.or_eq_true, decide_eq_true_eq] at h hd
    rcases h with h | h
    · exact absurd (UInt32.le_trans h.1 hd.2) (by decide)
    · exact absurd (UInt32.le_trans h.1 hd.2) (by decide)

theorem longest_identifier {c : Char} {name : List Char} (hc : c.isAlpha = true)
    (hname : ∀ d ∈ name, isNamePart d = true)
    (hrest : ∀ d, rest.head? = some d → isNamePart d = false) :
    longest all (c :: name ++ rest) = some (.identifier, (c :: name).length) := by
  have htaken : identifier (c :: name ++ rest) = some (.identifier, (c :: name).length) := by
    simp [identifier, isLetter, hc, takeWhile_until hname rest hrest, Nat.add_comm]
  have hquote : c ≠ quote := by
    rintro rfl
    cases hc
  have hdigit := isDigit_of_isAlpha hc
  refine longest_alone (mem_all_iff.2 (.inr (.inl rfl))) htaken fun r hr => ?_
  rcases mem_all_iff.1 hr with ⟨other, hother, rfl⟩ | rfl | rfl | rfl
  · exact .inr (symbol_nil hother (.inl hc))
  · exact .inl rfl
  · exact .inr (string_nil hquote)
  · exact .inr (number_nil hdigit)

theorem string_closed {content : List Char} (hcontent : quote ∉ content) :
    string (quote :: (content ++ quote :: rest)) = some (.string, content.length + 2) := by
  have htake : (content ++ quote :: rest).takeWhile (· ≠ quote) = content := by
    refine takeWhile_until (fun c hc => ?_) _ ?_
    · exact decide_eq_true fun h => hcontent (h ▸ hc)
    · rintro c ⟨⟩
      rfl
  simp only [string, if_true, htake]
  exact if_pos (by simp)

theorem longest_string {content : List Char} (hcontent : quote ∉ content) :
    longest all (quote :: (content ++ quote :: rest)) = some (.string, content.length + 2) := by
  refine longest_alone (mem_all_iff.2 (.inr (.inr (.inl rfl)))) (string_closed hcontent) fun r hr => ?_
  rcases mem_all_iff.1 hr with ⟨other, hother, rfl⟩ | rfl | rfl | rfl
  · exact .inr (symbol_nil hother (.inr (.inl rfl)))
  · exact .inr (identifier_nil rfl)
  · exact .inl rfl
  · exact .inr (number_nil rfl)

/-- What is taken of digits with a point behind them depends on what follows the point. -/
theorem number_point {w : List Char} (hne : w ≠ []) (hw : ∀ c ∈ w, c.isDigit) (after : List Char) :
    number (w ++ '.' :: after) = if after.takeWhile Char.isDigit = [] then some (.illegal, w.length + 1)
      else some (.number, w.length + 1 + (after.takeWhile Char.isDigit).length) := by
  have htake : (w ++ '.' :: after).takeWhile Char.isDigit = w := by
    refine takeWhile_until hw _ ?_
    rintro c ⟨⟩
    rfl
  simp only [number, htake, if_neg hne, List.drop_left]

theorem number_numeral {w f : List Char} (h : Number.Numeral text w f)
    (hrest : ∀ c, rest.head? = some c → c.isDigit = false ∧ c ≠ '.') :
    number (text ++ rest) = some (.number, text.length) := by
  cases h with
  | whole hne hw =>
    have htake := takeWhile_until hw rest fun c hc => (hrest c hc).1
    simp only [number, htake, if_neg hne, List.drop_left]
    split
    · exact absurd rfl (hrest '.' rfl).2
    · rfl
  | @pointed w f hne hw hfne hf =>
    have htake : (f ++ rest).takeWhile Char.isDigit = f :=
      takeWhile_until hf rest fun c hc => (hrest c hc).1
    rw [List.append_assoc, List.cons_append, number_point hne hw, htake, if_neg hfne]
    simp [Nat.add_comm, Nat.add_left_comm]

theorem longest_number {w f : List Char} (h : Number.Numeral text w f)
    (hrest : ∀ c, rest.head? = some c → c.isDigit = false ∧ c ≠ '.') :
    longest all (text ++ rest) = some (.number, text.length) := by
  have htaken := number_numeral h hrest
  obtain ⟨c, tail, rfl, hc⟩ := h.head
  have halpha : c.isAlpha = false := by
    cases ha : c.isAlpha with
    | false => rfl
    | true =>
      rw [isDigit_of_isAlpha ha] at hc
      cases hc
  have hquote : c ≠ quote := by
    rintro rfl
    cases hc
  refine longest_alone (mem_all_iff.2 (.inr (.inr (.inr rfl)))) htaken fun r hr => ?_
  rcases mem_all_iff.1 hr with ⟨other, hother, rfl⟩ | rfl | rfl | rfl
  · exact .inr (symbol_nil hother (.inr (.inr hc)))
  · exact .inr (identifier_nil halpha)
  · exact .inr (string_nil hquote)
  · exact .inl rfl

end LexicalRule
end Sigil
