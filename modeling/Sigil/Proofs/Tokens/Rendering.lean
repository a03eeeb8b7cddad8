import Mathlib.Data.List.Infix
import Sigil.Proofs.Tokens.Tiling
import Sigil.Proofs.Printing.Reads

/-!
Reading undoes writing. Tokens that are written with blanks between them are read again, whatever the
blanks are, and so are the tokens of any text, which can be laid out anew.
-/
namespace Sigil

open LexicalRule (quote isNamePart)

def Token.content (t : Token) : Kind × String := (t.kind, t.lexeme)

/-- Tokens with the blanks behind each of them, and the blanks in front of the first. Only behind the last
there may be none. -/
structure Rendering where
  front : List Char
  items : List (Token × List Char)
  blank_front : ∀ c ∈ front, Text.isBlank c
  blank_behind : ∀ item ∈ items, ∀ c ∈ item.2, Text.isBlank c
  parted : ∀ item ∈ items.dropLast, item.2 ≠ []

namespace Rendering

def body (items : List (Token × List Char)) : List Char :=
  items.flatMap fun item => item.1.source ++ item.2

def tokens (r : Rendering) : List Token := r.items.map Prod.fst

def text (r : Rendering) : String := String.ofList (r.front ++ body r.items)

end Rendering

/-! ### Where a blank follows, a token ends -/

theorem isDigit_of_isBlank {c : Char} (hc : Text.isBlank c) : c.isDigit = false :=
  Bool.eq_false_iff.2 fun h => Bool.eq_false_iff.1 (isBlank_of_isDigit h) hc

theorem isNamePart_of_isBlank {c : Char} (hc : Text.isBlank c) : isNamePart c = false := by
  have halpha : c.isAlpha = false :=
    Bool.eq_false_iff.2 fun h => Bool.eq_false_iff.1 (isBlank_of_isAlpha h) hc
  have hunderscore : c ≠ '_' := by
    rintro rfl
    cases hc
  simp [isNamePart, Char.isAlphanum, halpha, isDigit_of_isBlank hc, hunderscore]

/-- A longer symbol would have the blank in it. -/
theorem extends_of_isBlank {c : Char} (hc : Text.isBlank c) (kind : Kind) : kind.extends c = false := by
  have hsymbols : ∀ k ∈ Kind.symbols, k.text.toList.all (!Text.isBlank ·) = true := by decide
  refine Bool.eq_false_iff.2 fun h => ?_
  obtain ⟨other, hother, hfront⟩ := List.any_eq_true.1 h
  have hmem : c ∈ other.text.toList :=
    (List.isPrefixOf_iff_prefix.1 hfront).subset (List.mem_append_right _ List.mem_cons_self)
  have hnone := List.all_eq_true.1 (hsymbols other hother) c hmem
  rw [hc] at hnone
  cases hnone

variable {Q : List Token → Prop} {a rest blanks : List Char} {t : Token}

def Parted (text : List Char) : Prop := ∀ c, text.head? = some c → Text.isBlank c

theorem parted_append (hblanks : ∀ c ∈ blanks, Text.isBlank c) (hnone : blanks = [] → rest = []) :
    Parted (blanks ++ rest) := by
  cases blanks with
  | nil =>
    rw [hnone rfl]
    nofun
  | cons d blanks =>
    rintro c ⟨⟩
    exact hblanks d List.mem_cons_self

theorem Reads.content {kind : Kind} {lexeme : String}
    (h : Reads (fun ts => ∃ u us, ts = u :: us ∧ u.kind = kind ∧ u.lexeme = lexeme ∧ Q us) a rest) :
    Reads (fun ts => ∃ u us, ts = u :: us ∧ u.content = (kind, lexeme) ∧ Q us) a rest := by
  refine h.mono ?_
  rintro ts ⟨u, us, hts, hkind, hlexeme, hus⟩
  exact ⟨u, us, hts, Prod.ext hkind hlexeme, hus⟩

/-- A legal token is read up to the blank behind it, and the rest as it is read by itself. -/
theorem reads_token (ht : t.Legal) (hrest : Parted (a ++ rest)) (h : Reads Q a rest) :
    Reads (fun ts => ∃ u us, ts = u :: us ∧ u.content = t.content ∧ Q us) (t.source ++ a) rest := by
  cases ht with
  | @symbol kind position hk =>
    have hstring : ∀ k ∈ Kind.symbols, k ≠ .string := by decide
    have hsource : Token.source ⟨kind, kind.text, position⟩ = kind.text.toList := if_neg (hstring kind hk)
    rw [hsource]
    exact (reads_symbol_text hk (fun c hc => extends_of_isBlank (hrest c hc) kind) h).content
  | identifier hn => exact (reads_name hn (fun c hc => isNamePart_of_isBlank (hrest c hc)) h).content
  | @number text w f position hn =>
    have hsource : Token.source ⟨.number, String.ofList text, position⟩ = text := String.toList_ofList
    have hend : ∀ c, (a ++ rest).head? = some c → c.isDigit = false ∧ c ≠ '.' := by
      intro c hc
      have hblank := hrest c hc
      refine ⟨isDigit_of_isBlank hblank, ?_⟩
      rintro rfl
      cases hblank
    rw [hsource]
    exact (reads_number hn hend h).content
  | @string content position hc =>
    have hsource : Token.source ⟨.string, content, position⟩ ++ a =
        quote :: (content.toList ++ quote :: a) := by
      simp [Token.source]
    rw [hsource]
    exact (reads_string hc h).content

/-! ### Tokens one behind the other -/

theorem reads_items {items : List (Token × List Char)} (hlegal : ∀ item ∈ items, item.1.Legal)
    (hblank : ∀ item ∈ items, ∀ c ∈ item.2, Text.isBlank c)
    (hparted : ∀ item ∈ items.dropLast, item.2 ≠ []) :
    Reads (fun ts => ts.map Token.content = (items.map Prod.fst).map Token.content)
      (Rendering.body items) [] := by
  induction items with
  | nil => exact reads_nil rfl
  | cons item items ih =>
    obtain ⟨ht, hlegal⟩ := List.forall_mem_cons.1 hlegal
    obtain ⟨hbehind, hblank⟩ := List.forall_mem_cons.1 hblank
    have hitems := ih hlegal hblank fun i hi => hparted i (by
      rw [List.dropLast_cons_of_ne_nil (List.ne_nil_of_mem (List.mem_of_mem_dropLast hi))]
      exact List.mem_cons_of_mem _ hi)
    have hfollow : Parted (item.2 ++ Rendering.body items) := by
      refine parted_append hbehind fun hnone => ?_
      cases items with
      | nil => rfl
      | cons next items => exact absurd hnone (hparted item List.mem_cons_self)
    have hbody : Rendering.body (item :: items) = item.1.source ++ (item.2 ++ Rendering.body items) := by
      simp [Rendering.body]
    rw [hbody]
    refine (reads_token ht (by rwa [List.append_nil]) (reads_blanks hbehind hitems)).mono ?_
    rintro ts ⟨u, us, rfl, hu, hus⟩
    simp only [List.map_cons, hu, hus]

theorem Rendering.tokenize_text (r : Rendering) (h : ∀ t ∈ r.tokens, t.Legal) :
    ∃ ts, tokenize r.text = .ok ts ∧
      ts.map Token.content = r.tokens.map Token.content ++ [(.eof, "")] := by
  have hlegal : ∀ item ∈ r.items, item.1.Legal := fun item hi => h item.1 (List.mem_map_of_mem hi)
  have hreads : Reads (fun ts => ts.map Token.content = r.tokens.map Token.content) r.text.toList [] := by
    rw [Rendering.text, String.toList_ofList]
    exact reads_blanks r.blank_front (reads_items hlegal r.blank_behind r.parted)
  have hkinds : ∀ ts : List Token, ts.map Token.content = r.tokens.map Token.content →
      ∀ t ∈ ts, t.kind ≠ .illegal := by
    intro ts hts t ht
    have hmem : t.content ∈ r.tokens.map Token.content := hts ▸ List.mem_map_of_mem ht
    obtain ⟨u, hu, hcontent⟩ := List.mem_map.1 hmem
    have hkind : u.kind = t.kind := congrArg Prod.fst hcontent
    exact hkind ▸ (h u hu).kind_ne_illegal
  obtain ⟨ts, position, htokenize, hts⟩ := hreads.tokenize hkinds
  refine ⟨_, htokenize, ?_⟩
  rw [List.map_append, hts]
  rfl

/-- The tokens of a text are legal unless they are illegal by their kind, and the last is the end of
input. -/
theorem legal_tokens (s : Cursor) : ∃ us position, s.tokens = us ++ [⟨.eof, "", position⟩] ∧
    ∀ t ∈ us, t.kind ≠ .illegal → t.Legal := by
  fun_induction Cursor.tokens s with
  | case1 s h =>
    refine ⟨[], s.skipBlanks.position, ?_, List.forall_mem_nil _⟩
    rw [Cursor.token_of_end (Cursor.end_of_token h)]
    rfl
  | case2 s h ih =>
    obtain ⟨us, position, htokens, hus⟩ := ih
    refine ⟨s.token.1 :: us, position, by rw [htokens, List.cons_append], ?_⟩
    exact List.forall_mem_cons.2 ⟨fun hlegal => legal_token h hlegal, hus⟩

/-- Legal tokens are read back from any text they are written in. The tokens of a text are legal, and
written anew they say the same. -/
theorem tokenize_rendering :
    (∀ r : Rendering, (∀ t ∈ r.tokens, t.Legal) → ∃ ts, tokenize r.text = .ok ts ∧
        ts.map Token.content = r.tokens.map Token.content ++ [(.eof, "")]) ∧
      ∀ (source : String) (us : List Token) (r : Rendering), tokenize source = .ok us →
        r.tokens = us.dropLast → ∃ ts, tokenize r.text = .ok ts ∧
          ts.map Token.content = us.map Token.content := by
  refine ⟨Rendering.tokenize_text, fun source us r hsource hr => ?_⟩
  obtain ⟨htokens, hkinds⟩ := tokenize_eq_ok_iff.1 hsource
  obtain ⟨vs, position, hvs, hlegal⟩ := legal_tokens (Cursor.ofSource source)
  rw [← htokens] at hvs
  subst hvs
  rw [List.dropLast_concat] at hr
  subst hr
  obtain ⟨ts, hts, hcontent⟩ := r.tokenize_text fun t ht =>
    hlegal t ht (hkinds t (List.mem_append_left _ ht))
  exact ⟨ts, hts, by simp [hcontent, Token.content]⟩

def dense : String := "1.5.'a\n+'!=x"

def spread : Rendering where
  front := ['\n']
  items :=
    [(⟨.number, "1.5", ⟨1, 1⟩⟩, [' ']), (⟨.concat, ".", ⟨1, 4⟩⟩, [' ', '\t']),
      (⟨.string, "a\n+", ⟨1, 5⟩⟩, ['\n', '\n']), (⟨.bangEqual, "!=", ⟨2, 3⟩⟩, ['\u2003']),
      (⟨.identifier, "x", ⟨2, 5⟩⟩, [])]
  blank_front := List.all_eq_true.1 rfl
  blank_behind := by simp [Text.isBlank, Text.blankRanges]
  parted := by decide

theorem spread_of_dense : (∀ t ∈ spread.tokens, t.Legal) ∧
    (∃ ts, tokenize spread.text = .ok ts ∧
      ts.map Token.content = spread.tokens.map Token.content ++ [(.eof, "")]) ∧
    ∃ us, tokenize dense = .ok us ∧ spread.tokens = us.dropLast ∧
      ∃ ts, tokenize spread.text = .ok ts ∧ ts.map Token.content = us.map Token.content := by
  have hnumber : Token.Legal ⟨.number, "1.5", ⟨1, 1⟩⟩ :=
    .number (Number.Numeral.pointed (w := ['1']) (f := ['5']) nofun (List.all_eq_true.1 rfl) nofun
      (List.all_eq_true.1 rfl))
  have hname : IsName "x" := ⟨'x', [], rfl, rfl, nofun⟩
  have hlegal : ∀ t ∈ spread.tokens, t.Legal := by
    simp only [spread, Rendering.tokens, List.map_cons, List.map_nil, List.forall_mem_cons]
    exact ⟨hnumber, @Token.Legal.symbol .concat _ (by decide), .string (by decide),
      @Token.Legal.symbol .bangEqual _ (by decide), .identifier hname, nofun⟩
  have hdense : tokenize dense = .ok (spread.tokens ++ [⟨.eof, "", ⟨2, 6⟩⟩]) := by decide +kernel
  have hdrop : spread.tokens = (spread.tokens ++ [(⟨.eof, "", ⟨2, 6⟩⟩ : Token)]).dropLast :=
    List.dropLast_concat.symm
  exact ⟨hlegal, tokenize_rendering.1 spread hlegal, _, hdense, hdrop,
    tokenize_rendering.2 dense _ spread hdense hdrop⟩

end Sigil
