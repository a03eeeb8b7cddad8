import Mathlib.Data.List.Pairwise
import Sigil.Proofs.Tokens.Words

/-!
The token at the front of a text is the longest word there. The lexical rules never take equally much of
a text, so that their order does not matter.
-/
namespace Sigil

/-- The longest word at the front of a text and its kind, and what is left of the text. Where there is no
word, a single character is taken, which is illegal. -/
inductive Munch (text : List Char) : Kind → List Char → List Char → Prop
  | word {kind : Kind} {x rest : List Char} (htext : text = x ++ rest) (h : Lexeme rest kind x)
      (hmax : ∀ other y rest', text = y ++ rest' → Lexeme rest' other y →
        y.length < x.length ∨ y = x ∧ other = kind) :
      Munch text kind x rest
  | stray {c : Char} {rest : List Char} (htext : text = c :: rest)
      (hnone : ∀ other y rest', text = y ++ rest' → ¬ Lexeme rest' other y) :
      Munch text .illegal [c] rest

namespace LexicalRule

variable {rule : LexicalRule} {rules : List LexicalRule} {kind other : Kind} {text x rest : List Char}
  {m m' : Kind × Nat}

/-! ### For every word there is a rule that takes it, or more -/

def Grasps (rule : LexicalRule) (text : List Char) (kind : Kind) (n : Nat) : Prop :=
  ∃ m, rule text = some m ∧ n ≤ m.2 ∧ (m.2 = n → m.1 = kind)

theorem grasps_symbol (kind : Kind) (rest : List Char) :
    Grasps (symbol kind) (kind.text.toList ++ rest) kind kind.text.toList.length :=
  ⟨_, if_pos (List.isPrefixOf_iff_prefix.2 (List.prefix_append _ _)),
    Nat.le_of_eq String.length_toList, fun _ => rfl⟩

theorem grasps_identifier {c : Char} {name : List Char} (hc : c.isAlpha = true)
    (hname : ∀ d ∈ name, isNamePart d = true) :
    Grasps identifier (c :: name ++ rest) .identifier (c :: name).length := by
  refine ⟨_, if_pos hc, ?_, fun _ => rfl⟩
  have hlonger : ((name ++ rest).takeWhile isNamePart).length =
      name.length + (rest.takeWhile isNamePart).length := by
    rw [List.takeWhile_append_of_pos hname, List.length_append]
  show name.length + 1 ≤ 1 + ((name ++ rest).takeWhile isNamePart).length
  omega

theorem grasps_string {content : List Char} (hc : quote ∉ content) :
    Grasps string (quote :: (content ++ [quote]) ++ rest) .string
      (quote :: (content ++ [quote])).length := by
  rw [List.cons_append, List.append_assoc]
  exact ⟨_, string_closed hc, by simp, fun _ => rfl⟩

theorem grasps_unclosed {content : List Char} (hc : quote ∉ content) :
    Grasps string (quote :: content) .illegal (quote :: content).length := by
  have hcontent : content.takeWhile (· ≠ quote) = content :=
    List.takeWhile_eq_self_iff.2 fun c hmem => decide_eq_true (ne_of_mem_of_not_mem hmem hc)
  have htaken : string (quote :: content) = some (.illegal, content.length + 1) := by
    simp only [string, if_true, hcontent]
    exact if_neg (Nat.lt_irrefl _)
  exact ⟨_, htaken, Nat.le_refl _, fun _ => rfl⟩

/-- Digits are taken whole, and at least a point behind them. -/
theorem grasps_digits (hne : text.takeWhile Char.isDigit ≠ []) :
    Grasps number text .number (text.takeWhile Char.isDigit).length := by
  unfold number Grasps
  simp only [if_neg hne]
  split
  case h_1 after _ =>
    split
    · exact ⟨_, rfl, Nat.le_succ _, fun h => absurd h (Nat.succ_ne_self _)⟩
    · exact ⟨_, rfl, by simp only; omega, fun _ => rfl⟩
  case h_2 => exact ⟨_, rfl, Nat.le_refl _, fun _ => rfl⟩

theorem grasps_number {w f : List Char} (hn : Number.Numeral x w f) :
    Grasps number (x ++ rest) .number x.length := by
  cases hn with
  | whole hne hw =>
    have htake : (x ++ rest).takeWhile Char.isDigit = x ++ rest.takeWhile Char.isDigit :=
      List.takeWhile_append_of_pos hw
    have hlength := congrArg List.length htake
    obtain ⟨m, hm, hle, hkind⟩ := @grasps_digits (x ++ rest) (by simp [htake, hne])
    rw [List.length_append] at hlength
    exact ⟨m, hm, by omega, fun h => hkind (by omega)⟩
  | pointed hne hw hfne hf =>
    have htake : (f ++ rest).takeWhile Char.isDigit = f ++ rest.takeWhile Char.isDigit :=
      List.takeWhile_append_of_pos hf
    have htaken := number_point hne hw (f ++ rest)
    rw [if_neg (by simp [htake, hfne]), htake] at htaken
    rw [List.append_assoc, List.cons_append]
    exact ⟨_, htaken, by simp; omega, fun _ => rfl⟩

theorem grasps_dangling {w : List Char} (hne : w ≠ []) (hw : ∀ c ∈ w, c.isDigit)
    (hrest : ∀ c, rest.head? = some c → c.isDigit = false) :
    Grasps number (w ++ ['.'] ++ rest) .illegal (w ++ ['.']).length := by
  have hnone : rest.takeWhile Char.isDigit = [] := Number.takeWhile_until (a := []) nofun rest hrest
  have htaken := number_point hne hw rest
  rw [if_pos hnone] at htaken
  rw [List.append_assoc]
  exact ⟨_, htaken, by simp, fun _ => rfl⟩

theorem exists_grasps (h : Lexeme rest kind x) : ∃ rule ∈ all, Grasps rule (x ++ rest) kind x.length := by
  cases h with
  | symbol hk => exact ⟨_, mem_all_iff.2 (.inl ⟨kind, hk, rfl⟩), grasps_symbol kind rest⟩
  | identifier hn =>
    obtain ⟨c, name, rfl, hc, hname⟩ := hn
    rw [String.toList_ofList]
    exact ⟨_, mem_all_iff.2 (.inr (.inl rfl)),
      grasps_identifier hc fun d hd => by simpa [isNamePart] using hname d hd⟩
  | string hc => exact ⟨_, mem_all_iff.2 (.inr (.inr (.inl rfl))), grasps_string hc⟩
  | number hn => exact ⟨_, mem_all_iff.2 (.inr (.inr (.inr rfl))), grasps_number hn⟩
  | dangling hne hw hrest =>
    exact ⟨_, mem_all_iff.2 (.inr (.inr (.inr rfl))), grasps_dangling hne hw hrest⟩
  | unclosed hc hrest =>
    subst hrest
    rw [List.append_nil]
    exact ⟨_, mem_all_iff.2 (.inr (.inr (.inl rfl))), grasps_unclosed hc⟩

/-! ### No two rules take equally much -/

def Apart (rule rule' : LexicalRule) : Prop :=
  ∀ text m m', rule text = some m → rule' text = some m' → m.2 ≠ m'.2

instance : Std.Symm Apart where
  symm _ _ h := fun text m m' hm hm' => (h text m' m hm' hm).symm

theorem apart_symbols (hk : kind ∈ Kind.symbols) (ho : other ∈ Kind.symbols) (hne : kind ≠ other) :
    Apart (symbol kind) (symbol other) := by
  intro text m m' hm hm' heq
  obtain ⟨rfl, hfront⟩ := symbol_eq_some hm
  obtain ⟨rfl, hfront'⟩ := symbol_eq_some hm'
  simp only [← String.length_toList] at heq
  have hsame := (List.prefix_of_prefix_length_le hfront hfront' (Nat.le_of_eq heq)).eq_of_length heq
  exact hne (text_injective kind hk other ho hsame)

theorem identifier_head (h : identifier text = some m) : ∃ c rest, text = c :: rest ∧ c.isAlpha = true := by
  cases text with
  | nil => cases h
  | cons c rest =>
    refine ⟨c, rest, rfl, Bool.of_not_eq_false fun hc => ?_⟩
    rw [identifier_nil hc] at h
    cases h

theorem string_head (h : string text = some m) : ∃ rest, text = quote :: rest := by
  cases text with
  | nil => cases h
  | cons c rest =>
    refine ⟨rest, congrArg (· :: rest) (Decidable.byContradiction fun hc => ?_)⟩
    rw [string_nil hc] at h
    cases h

theorem number_head (h : number text = some m) : ∃ c rest, text = c :: rest ∧ c.isDigit = true := by
  cases text with
  | nil => cases h
  | cons c rest =>
    refine ⟨c, rest, rfl, Bool.of_not_eq_false fun hc => ?_⟩
    rw [number_nil hc] at h
    cases h

/-- No symbol is there where a rule of another kind takes something. -/
theorem apart_symbol (hk : kind ∈ Kind.symbols) (hr : rule = identifier ∨ rule = string ∨ rule = number) :
    Apart (symbol kind) rule := by
  intro text m m' hm hm'
  have hhead : ∃ c rest, text = c :: rest ∧ (c.isAlpha = true ∨ c = quote ∨ c.isDigit = true) := by
    rcases hr with rfl | rfl | rfl
    · obtain ⟨c, rest, rfl, hc⟩ := identifier_head hm'
      exact ⟨c, rest, rfl, .inl hc⟩
    · obtain ⟨rest, rfl⟩ := string_head hm'
      exact ⟨_, rest, rfl, .inr (.inl rfl)⟩
    · obtain ⟨c, rest, rfl, hc⟩ := number_head hm'
      exact ⟨c, rest, rfl, .inr (.inr hc)⟩
  obtain ⟨c, rest, rfl, hc⟩ := hhead
  rw [symbol_nil hk hc] at hm
  cases hm

theorem apart_identifier_string : Apart identifier string := by
  intro text m m' hm hm'
  obtain ⟨rest, rfl⟩ := string_head hm'
  cases hm

theorem apart_identifier_number : Apart identifier number := by
  intro text m m' hm hm'
  obtain ⟨c, rest, rfl, hc⟩ := identifier_head hm
  rw [number_nil (isDigit_of_isAlpha hc)] at hm'
  cases hm'

theorem apart_string_number : Apart string number := by
  intro text m m' hm hm'
  obtain ⟨rest, rfl⟩ := string_head hm
  cases hm'

theorem apart_all : all.Pairwise Apart := by
  have hsymbols : (Kind.symbols.map symbol).Pairwise Apart := by
    have hdistinct : Kind.symbols.Nodup := by decide
    refine List.pairwise_map.2 (hdistinct.imp_of_mem fun hk ho hne => apart_symbols hk ho hne)
  have hothers : [identifier, string, number].Pairwise Apart := by
    simp [apart_identifier_string, apart_identifier_number, apart_string_number]
  refine List.pairwise_append.2 ⟨hsymbols, hothers, fun rule hr rule' hr' => ?_⟩
  obtain ⟨kind, hk, rfl⟩ := List.mem_map.1 hr
  exact apart_symbol hk (by simpa using hr')

/-! ### The longest match -/

theorem exists_longer {best next : Option (Kind × Nat)} (h : best = some m ∨ next = some m) :
    ∃ m', longer best next = some m' ∧ m.2 ≤ m'.2 := by
  rcases h with rfl | rfl
  · cases next with
    | none => exact ⟨m, rfl, Nat.le_refl _⟩
    | some a =>
      by_cases hlt : m.2 < a.2
      · exact ⟨a, if_pos hlt, Nat.le_of_lt hlt⟩
      · exact ⟨m, if_neg hlt, Nat.le_refl _⟩
  · cases best with
    | none => exact ⟨m, rfl, Nat.le_refl _⟩
    | some a =>
      by_cases hlt : a.2 < m.2
      · exact ⟨m, if_pos hlt, Nat.le_refl _⟩
      · exact ⟨a, if_neg hlt, Nat.le_of_not_lt hlt⟩

/-- The longest match is at least as long as that of any rule. -/
theorem exists_longest (hr : rule ∈ rules) (hm : rule text = some m) :
    ∃ m', longest rules text = some m' ∧ m.2 ≤ m'.2 := by
  have key : ∀ best : Option (Kind × Nat), (∃ a, best = some a ∧ m.2 ≤ a.2) ∨ rule ∈ rules →
      ∃ m', rules.foldl (fun best rule => longer best (rule text)) best = some m' ∧ m.2 ≤ m'.2 := by
    clear hr
    induction rules with
    | nil => exact fun best h => h.resolve_right List.not_mem_nil
    | cons r rules ih =>
      rintro best (⟨a, hbest, hle⟩ | hr)
      · obtain ⟨b, hb, hab⟩ : ∃ b, longer best (r text) = some b ∧ a.2 ≤ b.2 :=
          exists_longer (.inl hbest)
        exact ih _ (.inl ⟨b, hb, Nat.le_trans hle hab⟩)
      · rcases List.mem_cons.1 hr with rfl | hr
        · exact ih _ (.inl (exists_longer (.inr hm)))
        · exact ih _ (.inr hr)
  exact key none (.inr hr)

/-- The longest match is longer than any other. -/
theorem reached_of_longest (hapart : rules.Pairwise Apart) (h : longest rules text = some m)
    (hr : rule ∈ rules) : Reached m (rule text) := by
  intro m' hm'
  obtain ⟨best, hbest, hm⟩ := exists_of_longest h
  obtain ⟨a, ha, hle⟩ := exists_longest hr hm'
  rw [h] at ha
  cases ha
  by_cases hsame : rule = best
  · subst hsame
    rw [hm] at hm'
    exact .inl (Option.some.inj hm').symm
  · have hne : m'.2 ≠ m.2 := hapart.forall hr hbest hsame text m' m hm' hm
    exact .inr (Nat.lt_of_le_of_ne hle hne)

theorem longest_perm {rules' : List LexicalRule} (hapart : rules.Pairwise Apart)
    (hp : rules'.Perm rules) (text : List Char) : longest rules' text = longest rules text := by
  cases h : longest rules text with
  | some m =>
    obtain ⟨best, hbest, hm⟩ := exists_of_longest h
    exact longest_eq (hp.mem_iff.2 hbest) hm fun r hr =>
      reached_of_longest hapart h (hp.mem_iff.1 hr)
  | none =>
    cases h' : longest rules' text with
    | none => rfl
    | some m =>
      obtain ⟨best, hbest, hm⟩ := exists_of_longest h'
      obtain ⟨a, ha, -⟩ := exists_longest (hp.mem_iff.1 hbest) hm
      rw [h] at ha
      cases ha

theorem munch_of_longest (h : longest all text = some m) :
    ∃ x rest, text = x ++ rest ∧ m.2 = x.length ∧ Munch text m.1 x rest := by
  obtain ⟨best, hbest, hm⟩ := exists_of_longest h
  obtain ⟨x, rest, htext, hlength, hword⟩ := spells_of_mem hbest hm
  refine ⟨x, rest, htext, hlength, .word htext hword fun other y rest' htext' hy => ?_⟩
  obtain ⟨rule, hr, m', hm', hle, hkind⟩ := exists_grasps hy
  rw [← htext'] at hm'
  rcases reached_of_longest apart_all h hr m' hm' with rfl | hlt
  · rw [hlength] at hle hkind
    rcases Nat.lt_or_eq_of_le hle with hlt | heq
    · exact .inl hlt
    · exact .inr ⟨List.append_inj_left (htext'.symm.trans htext) heq, (hkind heq.symm).symm⟩
  · exact .inl (by omega)

theorem munch_stray {c : Char} (h : longest all (c :: text) = none) :
    Munch (c :: text) .illegal [c] text := by
  refine .stray rfl fun other y rest htext hy => ?_
  obtain ⟨rule, hr, m, hm, -⟩ := exists_grasps hy
  rw [← htext] at hm
  obtain ⟨m', hm', -⟩ := exists_longest hr hm
  rw [h] at hm'
  cases hm'

end LexicalRule

open LexicalRule

/-- A token is the longest word where it stands, or a single illegal character where there is none. No
two rules take equally much, so that any order of the rules has the same longest match. -/
theorem token_munches :
    (∀ position c text, Text.isBlank c = false → ∃ kind x rest, Munch (c :: text) kind x rest ∧
      Cursor.token ⟨position, c :: text⟩ =
        (⟨kind, Cursor.lexeme kind x, position⟩, ⟨position.after x, rest⟩)) ∧
      all.Pairwise Apart ∧
        ∀ rules : List LexicalRule, rules.Perm all → ∀ text, longest rules text = longest all text := by
  refine ⟨fun position c text hc => ?_, apart_all, fun rules hp => longest_perm apart_all hp⟩
  cases h : longest all (c :: text) with
  | none =>
    exact ⟨.illegal, [c], text, munch_stray h, token_of_longest hc rfl (by rw [h]; rfl) position⟩
  | some m =>
    obtain ⟨x, rest, htext, hlength, hmunch⟩ := munch_of_longest h
    refine ⟨m.1, x, rest, hmunch, token_of_longest hc htext ?_ position⟩
    rw [h, ← hlength]
    rfl

example : all.length = 34 := rfl

/-- A second point does not belong to a number, in whatever order the rules are tried. -/
theorem number_munched : ∃ rest, Munch ['1', '.', '5', '.', 'x'] .number ['1', '.', '5'] rest ∧
    ∀ text, longest all.reverse text = longest all text := by
  obtain ⟨hmunch, -, horder⟩ := token_munches
  obtain ⟨kind, x, rest, h, htoken⟩ := hmunch .start '1' ['.', '5', '.', 'x'] (by decide)
  have hfound : Cursor.token ⟨.start, ['1', '.', '5', '.', 'x']⟩ =
      (⟨.number, String.ofList ['1', '.', '5'], .start⟩, ⟨⟨1, 4⟩, ['.', 'x']⟩) := by decide +kernel
  rw [hfound] at htoken
  simp only [Prod.mk.injEq, Token.mk.injEq] at htoken
  obtain ⟨⟨rfl, hx, -⟩, -⟩ := htoken
  obtain rfl : ['1', '.', '5'] = x := String.ofList_injective hx
  exact ⟨rest, h, horder _ (List.reverse_perm all)⟩

end Sigil
