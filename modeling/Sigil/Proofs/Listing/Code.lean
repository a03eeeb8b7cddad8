import Mathlib.Data.List.Sort
import Sigil.Code.Basic
import Sigil.Proofs.Listing.Instruction
import Sigil.Proofs.Printing.Lexeme

/-!
A listing can be read back: instructions and labels are told from one another by the first character of
their lines, and a string is over where its quote is, whatever it may look like before.
-/
namespace Sigil

open LexicalRule (isNamePart)

def Numbered (text : List Char) : Prop := ∃ c rest, text = c :: rest ∧ c.isDigit = true

def labelText (names : List String) : List Char := names.flatMap fun name => name.toList ++ [':', '\n']

namespace Code

def namesAt (code : Code) (address : Nat) : List String :=
  (code.labels.filter (·.1 = address)).map Prod.snd

structure Legible (code : Code) : Prop where
  instructions : ∀ i ∈ code.instructions.toList, i.Legible
  names : ∀ l ∈ code.labels, IsName l.2
  ordered : code.labels.Pairwise (·.1 < ·.1)
  inside : ∀ l ∈ code.labels, l.1 < code.size

def lines (code : Code) (start : Nat) (is : List Instruction) : List Char :=
  (is.zipIdx start).flatMap fun (i, address) =>
    (code.labelLines address).toList ++ (line address i).toList

end Code

variable {x y : List Char} {c d : Code} {i : Instruction} {address : Nat}

theorem IsName.head {name : String} (h : IsName name) :
    ∃ c rest, name.toList = c :: rest ∧ c.isDigit = false := by
  obtain ⟨c, rest, rfl, hc, -⟩ := h
  exact ⟨c, rest, String.toList_ofList, LexicalRule.isDigit_of_isAlpha hc⟩

theorem IsName.isNamePart {name : String} (h : IsName name) :
    ∀ c ∈ name.toList, isNamePart c = true := by
  obtain ⟨c, rest, rfl, hc, hrest⟩ := h
  rw [String.toList_ofList]
  refine List.forall_mem_cons.2 ⟨by simp [LexicalRule.isNamePart, Char.isAlphanum, hc], fun d hd => ?_⟩
  simpa [LexicalRule.isNamePart] using hrest d hd

/-- The line of a label does not begin with a digit. -/
theorem not_numbered_label {name : String} {names : List String} (hn : IsName name) :
    ¬ Numbered (labelText (name :: names) ++ x) := by
  rintro ⟨c, rest, h, hc⟩
  obtain ⟨d, rest', hname, hd⟩ := hn.head
  rw [labelText, List.flatMap_cons, hname] at h
  cases h
  rw [hc] at hd
  cases hd

/-- Labels can be read off the lines above an instruction. -/
theorem labelText_inj {ns ms : List String} (hn : ∀ name ∈ ns, IsName name)
    (hm : ∀ name ∈ ms, IsName name) (hx : Numbered x) (hy : Numbered y)
    (h : labelText ns ++ x = labelText ms ++ y) : ns = ms ∧ x = y := by
  induction ns generalizing ms with
  | nil =>
    cases ms with
    | nil => exact ⟨rfl, h⟩
    | cons m ms =>
      have hfirst : x = labelText (m :: ms) ++ y := h
      exact absurd (hfirst ▸ hx) (not_numbered_label (List.forall_mem_cons.1 hm).1)
  | cons n ns ih =>
    rw [List.forall_mem_cons] at hn
    cases ms with
    | nil =>
      have hfirst : labelText (n :: ns) ++ x = y := h
      exact absurd (hfirst ▸ hy) (not_numbered_label hn.1)
    | cons m ms =>
      rw [List.forall_mem_cons] at hm
      have hcolon : ∀ {z : List Char} c, (':' :: z).head? = some c → isNamePart c = false := by
        rintro z c ⟨⟩
        rfl
      have h' : n.toList ++ ':' :: '\n' :: (labelText ns ++ x) =
          m.toList ++ ':' :: '\n' :: (labelText ms ++ y) := by
        simpa [labelText] using h
      obtain ⟨hname, hrest⟩ := segment_inj hn.1.isNamePart hm.1.isNamePart hcolon hcolon h'
      simp only [List.cons.injEq, true_and] at hrest
      obtain ⟨rfl, hxy⟩ := ih hn.2 hm.2 hrest
      exact ⟨by rw [String.toList_injective hname], hxy⟩

namespace Code

theorem toList_labelLines (code : Code) (address : Nat) :
    (code.labelLines address).toList = labelText (code.namesAt address) := by
  simp only [labelLines, labelText, namesAt, String.toList_join, List.flatMap_map, String.toList_append]
  rfl

theorem toList_line (address : Nat) (i : Instruction) :
    (line address i).toList =
      (Text.address address).toList ++ '\t' :: (i.render.toList ++ ['\n']) := by
  simp [line]

theorem toList_listing (code : Code) : code.listing.toList = code.lines 0 code.instructions.toList := by
  simp only [listing, lines, String.toList_join, List.flatMap_map, String.toList_append]

theorem numbered_line (address : Nat) (i : Instruction) : Numbered ((line address i).toList ++ x) := by
  have hdigits : ∀ c ∈ (Text.address address).toList, c.isDigit = true := by
    simp only [Text.address, Text.alignRight, Text.filler, Text.decimal, String.toList_append,
      String.toList_ofList]
    refine List.forall_mem_append.2 ⟨fun c hc => ?_, Number.isDigit_toDigits address⟩
    rw [List.eq_of_mem_replicate hc]
    rfl
  have hne : (Text.address address).toList ≠ [] := by
    simp [Text.address, Text.alignRight, Text.decimal, Nat.toDigits_ne_nil]
  obtain ⟨c, rest, htext⟩ := List.exists_cons_of_ne_nil hne
  rw [htext] at hdigits
  exact ⟨c, _, by rw [toList_line, htext]; rfl, hdigits c List.mem_cons_self⟩

theorem Legible.isName (h : c.Legible) (address : Nat) : ∀ name ∈ c.namesAt address, IsName name := by
  intro name hname
  obtain ⟨l, hl, rfl⟩ := List.mem_map.1 hname
  exact h.names l (List.mem_filter.1 hl).1

/-- From the same lines the same instructions are read, below the same labels. -/
theorem lines_inj {is js : List Instruction} {start : Nat} (hc : ∀ a, ∀ name ∈ c.namesAt a, IsName name)
    (hd : ∀ a, ∀ name ∈ d.namesAt a, IsName name) (hi : ∀ i ∈ is, i.Legible)
    (hj : ∀ j ∈ js, j.Legible) (h : c.lines start is = d.lines start js) :
    is = js ∧ ∀ a, start ≤ a → a < start + is.length → c.namesAt a = d.namesAt a := by
  induction is generalizing js start with
  | nil =>
    cases js with
    | nil => exact ⟨rfl, fun a hle hlt => absurd hlt (Nat.not_lt.2 hle)⟩
    | cons j js => simp [lines, toList_line] at h
  | cons i is ih =>
    cases js with
    | nil => simp [lines, toList_line] at h
    | cons j js =>
      rw [List.forall_mem_cons] at hi hj
      have h' : labelText (c.namesAt start) ++ ((line start i).toList ++ c.lines (start + 1) is) =
          labelText (d.namesAt start) ++ ((line start j).toList ++ d.lines (start + 1) js) := by
        simpa [lines, toList_labelLines] using h
      obtain ⟨hnames, hline⟩ :=
        labelText_inj (hc start) (hd start) (numbered_line start i) (numbered_line start j) h'
      have hrender : i.render.toList ++ '\n' :: c.lines (start + 1) is =
          j.render.toList ++ '\n' :: d.lines (start + 1) js := by
        simpa [toList_line] using hline
      obtain ⟨rfl, hlines⟩ := Instruction.render_inj hi.1 hj.1 hrender
      obtain ⟨rfl, hmore⟩ := ih hi.2 hj.2 hlines
      refine ⟨rfl, fun a hle hlt => ?_⟩
      rw [List.length_cons] at hlt
      rcases Nat.eq_or_lt_of_le hle with rfl | hle
      · exact hnames
      · exact hmore a hle (by omega)

theorem mem_namesAt {name : String} : name ∈ c.namesAt address ↔ (address, name) ∈ c.labels := by
  simp [namesAt]

/-- Labels in the order of their addresses are known from those of each address. -/
theorem labels_eq (hc : c.Legible) (hd : d.Legible) (hsize : c.size = d.size)
    (h : ∀ a < c.size, c.namesAt a = d.namesAt a) : c.labels = d.labels := by
  have hmem : ∀ l, l ∈ c.labels ↔ l ∈ d.labels := by
    rintro ⟨a, name⟩
    by_cases ha : a < c.size
    · rw [← mem_namesAt, ← mem_namesAt, h a ha]
    · exact ⟨fun hl => absurd (hc.inside _ hl) ha, fun hl => absurd (hsize ▸ hd.inside _ hl) ha⟩
  have hanti : Std.Antisymm fun k l : Nat × String => k.1 < l.1 :=
    ⟨fun _ _ h g => absurd (Nat.lt_trans h g) (Nat.lt_irrefl _)⟩
  have hirrefl : Std.Irrefl fun k l : Nat × String => k.1 < l.1 := ⟨fun _ => Nat.lt_irrefl _⟩
  exact hc.ordered.eq_of_mem_iff hd.ordered hmem

/-- Code that its listing shows is known from it. -/
theorem listing_inj (hc : c.Legible) (hd : d.Legible) (h : c.listing = d.listing) : c = d := by
  have hlines := congrArg String.toList h
  rw [toList_listing, toList_listing] at hlines
  obtain ⟨his, hnames⟩ := lines_inj hc.isName hd.isName hc.instructions hd.instructions hlines
  have hsize : c.size = d.size := by
    have := congrArg List.length his
    simpa [size] using this
  have hlabels := labels_eq hc hd hsize fun a ha =>
    hnames a (Nat.zero_le a) (by simpa [size] using ha)
  obtain ⟨is, labels⟩ := c
  obtain ⟨js, labels'⟩ := d
  simp only at his hlabels
  rw [Array.toList_inj.1 his, hlabels]

end Code

end Sigil
