import Sigil.Code.Instruction
import Sigil.Proofs.Number.Numeral
import Sigil.Token.Lexer

/-!
The text of an instruction can be read in one way only, whatever follows in the next lines. Every part
of it either is put in front of a separator that it does not contain, or has the length that its first
characters say.
-/
namespace Sigil

open LexicalRule (quote)

/-- A text up to the first character that is not in the class is the same on both sides. -/
theorem segment_inj {p : Char → Bool} {a b x y : List Char} (ha : ∀ c ∈ a, p c = true)
    (hb : ∀ c ∈ b, p c = true) (hx : ∀ c, x.head? = some c → p c = false)
    (hy : ∀ c, y.head? = some c → p c = false) (h : a ++ x = b ++ y) : a = b ∧ x = y := by
  have htake := congrArg (List.takeWhile p) h
  have hdrop := congrArg (List.dropWhile p) h
  rw [Number.takeWhile_until ha x hx, Number.takeWhile_until hb y hy] at htake
  rw [Number.dropWhile_until ha x hx, Number.dropWhile_until hb y hy] at hdrop
  exact ⟨htake, hdrop⟩

section Digits

variable {base m n : Nat}

theorem digitChar_injective (hm : m < 16) (hn : n < 16) (h : m.digitChar = n.digitChar) : m = n := by
  have hall : ∀ m < 16, ∀ n < 16, m.digitChar = n.digitChar → m = n := by decide
  exact hall m hm n hn h

theorem toDigits_injective (hbase : 1 < base) (hle : base ≤ 16)
    (h : Nat.toDigits base m = Nat.toDigits base n) : m = n := by
  have hlt : ∀ k, k % base < 16 := fun k =>
    Nat.lt_of_lt_of_le (Nat.mod_lt k (Nat.zero_lt_of_lt hbase)) hle
  induction m using Nat.strongRecOn generalizing n with
  | ind m ih =>
    rw [Nat.toDigits_eq_if hbase, Nat.toDigits_eq_if (n := n) hbase] at h
    have hlong : ∀ (k : Nat) (c d : Char), [] ++ [c] ≠ Nat.toDigits base k ++ [d] :=
      fun k c d hc => Nat.toDigits_ne_nil (List.append_inj' hc rfl).1.symm
    split at h
    next hm =>
      split at h
      next hn =>
        exact digitChar_injective (Nat.lt_of_lt_of_le hm hle) (Nat.lt_of_lt_of_le hn hle)
          (List.singleton_inj.1 h)
      next => exact absurd h (hlong _ _ _)
    next hm =>
      split at h
      next => exact absurd h.symm (hlong _ _ _)
      next hn =>
        obtain ⟨hfront, hlast⟩ := List.append_inj' h rfl
        have hdiv : m / base = n / base := ih _ (Nat.div_lt_self (by omega) hbase) hfront
        have hmod : m % base = n % base :=
          digitChar_injective (hlt m) (hlt n) (List.singleton_inj.1 hlast)
        rw [← Nat.div_add_mod m base, hdiv, hmod, Nat.div_add_mod]

theorem isAlphanum_toDigits (hbase : 1 < base) (hle : base ≤ 16) (n : Nat) :
    ∀ c ∈ Nat.toDigits base n, c.isAlphanum := by
  have hall : ∀ k < 16, k.digitChar.isAlphanum := by decide
  induction n using Nat.strongRecOn with
  | ind n ih =>
    rw [Nat.toDigits_eq_if hbase]
    split
    next hn => simpa using hall n (Nat.lt_of_lt_of_le hn hle)
    next hn =>
      refine List.forall_mem_append.2 ⟨ih _ (Nat.div_lt_self (by omega) hbase), ?_⟩
      have hmod := Nat.mod_lt n (Nat.zero_lt_of_lt hbase)
      simpa using hall _ (Nat.lt_of_lt_of_le hmod hle)

end Digits

def Value.Legible : Value → Prop
  | number x => Number.isFinite x = true ∧ x.toBits.toNat < 2 ^ 63
  | string s => quote ∉ s.toList

inductive Argument where
  | operand (o : Operand)
  | count (n : Nat)
  | target (address : Nat)

namespace Argument

def render : Argument → String
  | operand o => o.render
  | count n => Text.decimal n
  | target address => Text.hexadecimal address

def further (as : List Argument) : String := String.join (as.map fun a => "," ++ a.render)

@[simp]
def Legible : Argument → Prop
  | operand (.constant v) => v.Legible
  | _ => True

end Argument

namespace Instruction

@[simp]
def arguments : Instruction → List Argument
  | move a b | binary _ a b => [.operand a, .operand b]
  | push a | pop a | not a | result a | exit a => [.operand a]
  | drop n => [.count n]
  | call target | goto target => [.target target]
  | jumpUnless a target => [.operand a, .target target]
  | new address | release address => [.operand (.heap address)]

def Legible (i : Instruction) : Prop := ∀ a ∈ i.arguments, a.Legible

theorem exists_arguments (i : Instruction) :
    ∃ a as, i.arguments = a :: as ∧ i.operands = a.render ++ Argument.further as := by
  cases i <;>
    exact ⟨_, _, rfl, by simp [operands, Argument.render, Argument.further, String.append_assoc]⟩

def operation? : String → Option Operation
  | "Add" => some (.arithmetic .add)
  | "Sub" => some (.arithmetic .subtract)
  | "Mul" => some (.arithmetic .multiply)
  | "Div" => some (.arithmetic .divide)
  | "Mod" => some (.arithmetic .modulo)
  | "Less" => some (.order .less)
  | "LessEqual" => some (.order .lessEqual)
  | "Greater" => some (.order .greater)
  | "GreaterEqual" => some (.order .greaterEqual)
  | "Equal" => some .equal
  | "NotEqual" => some .notEqual
  | "And" => some .and
  | "Or" => some .or
  | "Concat" => some .concat
  | _ => none

def ofParts? : String → List Argument → Option Instruction
  | "Mov", [.operand a, .operand b] => some (.move a b)
  | "Push", [.operand a] => some (.push a)
  | "Pop", [.operand a] => some (.pop a)
  | "Drop", [.count n] => some (.drop n)
  | "Not", [.operand a] => some (.not a)
  | "Call", [.target target] => some (.call target)
  | "Result", [.operand a] => some (.result a)
  | "Exit", [.operand a] => some (.exit a)
  | "Goto", [.target target] => some (.goto target)
  | "JumpUnless", [.operand a, .target target] => some (.jumpUnless a target)
  | "New", [.operand (.heap address)] => some (.new address)
  | "Release", [.operand (.heap address)] => some (.release address)
  | mnemonic, [.operand a, .operand b] => (operation? mnemonic).map fun op => .binary op a b
  | _, _ => none

/-- An instruction is told by its mnemonic and its arguments. -/
theorem ofParts?_parts (i : Instruction) : ofParts? i.mnemonic i.arguments = some i := by
  cases i with
  | binary op a b =>
    rcases op with f | r | _ | _ | _ | _ | _
    · cases f <;> rfl
    · cases r <;> rfl
    all_goals rfl
  | _ => rfl

end Instruction

namespace Argument

variable {a b : Argument} {x y : List Char}

def Stops (text : List Char) : Prop := ∀ c, text.head? = some c → c = ',' ∨ c = '\n'

theorem Stops.not_alphanum (h : Stops x) : ∀ c, x.head? = some c → c.isAlphanum = false := by
  intro c hc
  rcases h c hc with rfl | rfl <;> rfl

theorem digits_inj {base m n : Nat} (hbase : 1 < base) (hle : base ≤ 16)
    (hx : ∀ c, x.head? = some c → c.isAlphanum = false)
    (hy : ∀ c, y.head? = some c → c.isAlphanum = false)
    (h : Nat.toDigits base m ++ x = Nat.toDigits base n ++ y) : m = n ∧ x = y := by
  obtain ⟨hdigits, hrest⟩ := segment_inj (isAlphanum_toDigits hbase hle m)
    (isAlphanum_toDigits hbase hle n) hx hy h
  exact ⟨toDigits_injective hbase hle hdigits, hrest⟩

theorem string_inj {s t : String} (hs : quote ∉ s.toList) (ht : quote ∉ t.toList)
    (h : s.toList ++ quote :: x = t.toList ++ quote :: y) : s = t ∧ x = y := by
  have hne : ∀ {s : String}, quote ∉ s.toList → ∀ c ∈ s.toList, (c ≠ quote : Bool) = true := by
    intro s hs c hc
    have : c ≠ quote := fun he => hs (he ▸ hc)
    simpa using this
  have hstop : ∀ {z : List Char} c, (quote :: z).head? = some c → (c ≠ quote : Bool) = false := by
    rintro z c ⟨⟩
    simp
  obtain ⟨htext, hrest⟩ := segment_inj (hne hs) (hne ht) hstop hstop h
  exact ⟨String.toList_injective htext, (List.cons.inj hrest).2⟩

theorem numeral_chars {text w f : List Char} (h : Number.Numeral text w f) :
    ∀ c ∈ text, (c.isDigit || c == '.') = true := by
  cases h with
  | whole _ hw => exact fun c hc => by simp [hw c hc]
  | pointed _ hw _ hf =>
    refine List.forall_mem_append.2 ⟨fun c hc => by simp [hw c hc], List.forall_mem_cons.2 ⟨rfl, ?_⟩⟩
    exact fun c hc => by simp [hf c hc]

/-- Digits and a point say which number is meant. -/
theorem number_inj {u v : Float} (hu : (Value.number u).Legible) (hv : (Value.number v).Legible)
    (hx : Stops x) (hy : Stops y)
    (h : (Number.render u).toList ++ x = (Number.render v).toList ++ y) : u = v ∧ x = y := by
  obtain ⟨a, w, f, hrender, ha, hvalue⟩ := Number.render_numeral hu.1 hu.2
  obtain ⟨b, w', f', hrender', hb, hvalue'⟩ := Number.render_numeral hv.1 hv.2
  have hstop : ∀ {z : List Char}, Stops z → ∀ c, z.head? = some c → (c.isDigit || c == '.') = false := by
    intro z hz c hc
    rcases hz c hc with rfl | rfl <;> rfl
  rw [hrender, hrender', String.toList_ofList, String.toList_ofList] at h
  obtain ⟨rfl, hrest⟩ := segment_inj (numeral_chars ha) (numeral_chars hb) (hstop hx) (hstop hy) h
  have hread := (Number.read?_numeral ha).symm.trans (Number.read?_numeral hb)
  rw [hvalue, hvalue'] at hread
  exact ⟨Option.some.inj hread, hrest⟩

theorem stack_text (t : Int) : (Operand.stack t).render.toList =
    'B' :: 'P' :: (if t < 0 then '-' else '+') :: '0' :: 'x' :: Nat.toDigits 16 t.natAbs := by
  by_cases ht : t < 0 <;> simp [Operand.render, Text.hexadecimal, ht]

theorem heap_text (cell : Nat) :
    (Operand.heap cell).render.toList = 'M' :: '(' :: '0' :: 'x' :: (Nat.toDigits 16 cell ++ [')']) := by
  simp [Operand.render, Text.hexadecimal]

theorem register_text (id : Nat) : (Operand.register id).render.toList = '%' :: Nat.toDigits 10 id := by
  simp [Operand.render, Text.decimal]

theorem number_text (x : Float) :
    (Operand.constant (.number x)).render.toList = '#' :: (Number.render x).toList := by
  simp [Operand.render]

theorem string_text (s : String) :
    (Operand.constant (.string s)).render.toList = quote :: (s.toList ++ [quote]) := by
  simp [Operand.render, quote]

def tag : Operand → Char
  | .stack _ => 'B'
  | .heap _ => 'M'
  | .register _ => '%'
  | .constant (.number _) => '#'
  | .constant (.string _) => quote

theorem exists_tag (o : Operand) : ∃ rest, o.render.toList = tag o :: rest := by
  rcases o with t | cell | id | x | s
  · exact ⟨_, stack_text t⟩
  · exact ⟨_, heap_text cell⟩
  · exact ⟨_, register_text id⟩
  · exact ⟨_, number_text x⟩
  · exact ⟨_, string_text s⟩

theorem tag_eq {o o' : Operand} (h : o.render.toList ++ x = o'.render.toList ++ y) : tag o = tag o' := by
  obtain ⟨rest, ho⟩ := exists_tag o
  obtain ⟨rest', ho'⟩ := exists_tag o'
  rw [ho, ho'] at h
  exact (List.cons.inj h).1

theorem operand_inj {o o' : Operand} (ho : (operand o).Legible) (ho' : (operand o').Legible)
    (hx : Stops x) (hy : Stops y) (h : o.render.toList ++ x = o'.render.toList ++ y) :
    o = o' ∧ x = y := by
  have htag := tag_eq h
  have hclose : ∀ (z : List Char) c, (')' :: z).head? = some c → c.isAlphanum = false := by
    rintro z c ⟨⟩
    rfl
  rcases o with t | cell | id | u | s <;> rcases o' with t' | cell' | id' | u' | s' <;>
    first | (cases htag; done) | clear htag
  · rw [stack_text, stack_text] at h
    simp only [List.cons_append, List.cons.injEq, true_and] at h
    obtain ⟨hsign, h⟩ := h
    obtain ⟨habs, hrest⟩ := digits_inj (by decide) (by decide) hx.not_alphanum hy.not_alphanum h
    have hlt : t < 0 ↔ t' < 0 := by
      by_cases ht : t < 0 <;> by_cases ht' : t' < 0 <;> simp [ht, ht'] at hsign ⊢
    exact ⟨congrArg Operand.stack (by omega), hrest⟩
  · rw [heap_text, heap_text] at h
    simp only [List.cons_append, List.append_assoc, List.cons.injEq, true_and] at h
    obtain ⟨rfl, hrest⟩ := digits_inj (by decide) (by decide) (hclose x) (hclose y) h
    exact ⟨rfl, (List.cons.inj hrest).2⟩
  · rw [register_text, register_text] at h
    obtain ⟨rfl, hrest⟩ := digits_inj (by decide) (by decide) hx.not_alphanum hy.not_alphanum
      (List.cons.inj h).2
    exact ⟨rfl, hrest⟩
  · rw [number_text, number_text] at h
    obtain ⟨rfl, hrest⟩ := number_inj ho ho' hx hy (List.cons.inj h).2
    exact ⟨rfl, hrest⟩
  · rw [string_text, string_text] at h
    simp only [List.cons_append, List.append_assoc, List.cons.injEq, true_and] at h
    obtain ⟨rfl, hrest⟩ := string_inj ho ho' h
    exact ⟨rfl, hrest⟩

/-- A count does not begin like an address. -/
theorem count_ne_target {n address : Nat} (hx : Stops x) :
    (count n).render.toList ++ x ≠ (target address).render.toList ++ y := by
  intro h
  have hstop : ∀ c, x.head? = some c → c.isDigit = false := by
    intro c hc
    rcases hx c hc with rfl | rfl <;> rfl
  have hletter : ∀ c, ('x' :: (Nat.toDigits 16 address ++ y)).head? = some c → c.isDigit = false := by
    rintro c ⟨⟩
    rfl
  have h' : Nat.toDigits 10 n ++ x = ['0'] ++ 'x' :: (Nat.toDigits 16 address ++ y) := by
    simpa [render, Text.decimal, Text.hexadecimal] using h
  obtain ⟨-, rfl⟩ := segment_inj (Number.isDigit_toDigits n) (by simp) hstop hletter h'
  rcases hx 'x' rfl with hc | hc <;> cases hc

/-- An operand does not begin with a digit. -/
theorem operand_ne_digits {o : Operand} {c : Char} {rest : List Char} (hc : c.isDigit) :
    o.render.toList ++ x ≠ c :: rest := by
  intro h
  obtain ⟨rest', ho⟩ := exists_tag o
  rw [ho] at h
  have htag := (List.cons.inj h).1
  rw [← htag] at hc
  rcases o with _ | _ | _ | _ | _ <;> cases hc

theorem digits_head (n : Nat) : ∃ c rest, Nat.toDigits 10 n = c :: rest ∧ c.isDigit := by
  obtain ⟨c, rest, h⟩ := List.exists_cons_of_ne_nil (Nat.toDigits_ne_nil (n := n) (b := 10))
  exact ⟨c, rest, h, Number.isDigit_toDigits n c (h ▸ List.mem_cons_self)⟩

/-- The text of a count or of an address begins with a digit. -/
theorem operand_ne {o : Operand} (ha : ∀ o', a ≠ operand o') :
    o.render.toList ++ x ≠ a.render.toList ++ y := by
  cases a with
  | operand o' => exact absurd rfl (ha o')
  | count n =>
    obtain ⟨c, rest, hdigits, hc⟩ := digits_head n
    have htext : (count n).render.toList ++ y = c :: (rest ++ y) := by
      simp [render, Text.decimal, hdigits]
    rw [htext]
    exact operand_ne_digits hc
  | target address =>
    have htext : (target address).render.toList ++ y =
        '0' :: 'x' :: (Nat.toDigits 16 address ++ y) := by
      simp [render, Text.hexadecimal]
    rw [htext]
    exact operand_ne_digits rfl

theorem render_inj (ha : a.Legible) (hb : b.Legible) (hx : Stops x) (hy : Stops y)
    (h : a.render.toList ++ x = b.render.toList ++ y) : a = b ∧ x = y := by
  cases a with
  | operand o =>
    cases b with
    | operand o' =>
      obtain ⟨rfl, hrest⟩ := operand_inj ha hb hx hy h
      exact ⟨rfl, hrest⟩
    | count _ | target _ => exact absurd h (operand_ne nofun)
  | count n =>
    cases b with
    | operand _ => exact absurd h.symm (operand_ne nofun)
    | count n' =>
      have h' : Nat.toDigits 10 n ++ x = Nat.toDigits 10 n' ++ y := by
        simpa [render, Text.decimal] using h
      obtain ⟨rfl, hrest⟩ := digits_inj (by decide) (by decide) hx.not_alphanum hy.not_alphanum h'
      exact ⟨rfl, hrest⟩
    | target _ => exact absurd h (count_ne_target hx)
  | target address =>
    cases b with
    | operand _ => exact absurd h.symm (operand_ne nofun)
    | count _ => exact absurd h.symm (count_ne_target hy)
    | target address' =>
      have h' : Nat.toDigits 16 address ++ x = Nat.toDigits 16 address' ++ y := by
        simpa [render, Text.hexadecimal] using h
      obtain ⟨rfl, hrest⟩ := digits_inj (by decide) (by decide) hx.not_alphanum hy.not_alphanum h'
      exact ⟨rfl, hrest⟩

theorem stops_further (as : List Argument) (x : List Char) : Stops ((further as).toList ++ '\n' :: x) := by
  cases as with
  | nil =>
    rintro c ⟨⟩
    exact .inr rfl
  | cons a as =>
    intro c hc
    simp [further] at hc
    exact .inl hc.symm

theorem further_inj {as bs : List Argument} (ha : ∀ a ∈ as, a.Legible) (hb : ∀ b ∈ bs, b.Legible)
    (h : (further as).toList ++ '\n' :: x = (further bs).toList ++ '\n' :: y) : as = bs ∧ x = y := by
  induction as generalizing bs with
  | nil =>
    cases bs with
    | nil => exact ⟨rfl, (List.cons.inj h).2⟩
    | cons b bs => simp [further] at h
  | cons a as ih =>
    cases bs with
    | nil => simp [further] at h
    | cons b bs =>
      rw [List.forall_mem_cons] at ha hb
      have h' : a.render.toList ++ ((further as).toList ++ '\n' :: x) =
          b.render.toList ++ ((further bs).toList ++ '\n' :: y) := by
        simpa [further] using h
      obtain ⟨rfl, hmore⟩ := render_inj ha.1 hb.1 (stops_further as x) (stops_further bs y) h'
      obtain ⟨rfl, hrest⟩ := ih ha.2 hb.2 hmore
      exact ⟨rfl, hrest⟩

end Argument

theorem Operation.isAlpha_mnemonic (op : Operation) : ∀ c ∈ op.mnemonic.toList, c.isAlpha = true := by
  rcases op with f | r | _ | _ | _ | _ | _
  · cases f <;> simp [mnemonic, Arithmetic.mnemonic]
  · cases r <;> simp [mnemonic, Order.mnemonic]
  all_goals simp [mnemonic]

namespace Instruction

variable {i j : Instruction} {x y : List Char}

theorem isAlpha_mnemonic (i : Instruction) : ∀ c ∈ i.mnemonic.toList, c.isAlpha = true := by
  cases i with
  | binary op _ _ => exact op.isAlpha_mnemonic
  | _ => simp [mnemonic]

/-- An instruction can be read off its line. -/
theorem render_inj (hi : i.Legible) (hj : j.Legible)
    (h : i.render.toList ++ '\n' :: x = j.render.toList ++ '\n' :: y) : i = j ∧ x = y := by
  obtain ⟨a, as, hia, hio⟩ := i.exists_arguments
  obtain ⟨b, bs, hjb, hjo⟩ := j.exists_arguments
  have hia' := hi
  have hjb' := hj
  rw [Legible, hia, List.forall_mem_cons] at hia'
  rw [Legible, hjb, List.forall_mem_cons] at hjb'
  have htab : ∀ {z : List Char} c, ('\t' :: z).head? = some c → c.isAlpha = false := by
    rintro z c ⟨⟩
    rfl
  simp only [render, hio, hjo, String.toList_append, List.append_assoc] at h
  obtain ⟨hmnemonic, h⟩ := segment_inj i.isAlpha_mnemonic j.isAlpha_mnemonic htab htab h
  obtain ⟨rfl, hmore⟩ := Argument.render_inj hia'.1 hjb'.1 (Argument.stops_further as x)
    (Argument.stops_further bs y) (List.cons.inj h).2
  obtain ⟨rfl, hrest⟩ := Argument.further_inj hia'.2 hjb'.2 hmore
  refine ⟨Option.some.inj ?_, hrest⟩
  rw [← i.ofParts?_parts, ← j.ofParts?_parts, String.toList_injective hmnemonic, hia, hjb]

end Instruction

end Sigil
