import Sigil.Proofs.Draft.Basic

/-!
What is known of a machine by the place it has come to. Every form leaves the stack as high as it finds
it, so what is known can be read off the code in front of a place, whatever jumps have led there: the
code has a course. While a heap cell is live, no instruction may fault or lead elsewhere.
-/
namespace Sigil

open Draft (fixed)
open Operand (accumulator)

/-- How many cells the current frame has, and the heap cell that is live with the type of its value,
if there is one. -/
structure Point where
  height : Nat
  buffer : Option (Nat × ValueType)

structure Limits where
  parameters : Nat
  height : Nat
  arity? : String → Option Nat

namespace Point

def bottom : Point := ⟨0, none⟩

def after (P : Point) : Draft → Point
  | .fixed (.push _) => { P with height := P.height + 1 }
  | .fixed (.drop n) => { P with height := P.height - n }
  | .fixed (.new cell) => { P with buffer := some (cell, .number) }
  | .fixed (.move (.heap cell) (.constant v)) => { P with buffer := some (cell, v.type) }
  | .fixed (.release _) => { P with buffer := none }
  | _ => P

def behind (P : Point) (code : List Draft) : Point := code.foldl after P

def HasSlot (c : Limits) (P : Point) (t : Int) : Prop := -(c.parameters : Int) ≤ t ∧ t < P.height

inductive Fits (c : Limits) (P : Point) : Draft → Prop
  | literal (v : Value) : Fits c P (fixed (.move accumulator (.constant v)))
  | load {t : Int} (ht : HasSlot c P t) : Fits c P (Draft.load t)
  | store {t : Int} (ht : HasSlot c P t) : Fits c P (Draft.store t)
  | push (hroom : P.height < c.height) (hb : P.buffer = none) : Fits c P Draft.push
  | pushZero (hroom : P.height < c.height) (hb : P.buffer = none) : Fits c P Block.pushZero
  | pushSlot {t : Int} (hroom : P.height < c.height) (hb : P.buffer = none) (ht : HasSlot c P t) :
      Fits c P (fixed (.push (.stack t)))
  | drop {n : Nat} (hn : n ≤ P.height) : Fits c P (fixed (.drop n))
  | not : Fits c P (fixed (.not accumulator))
  | binary {s t : Int} (op : Operation) (hb : P.buffer = none) (hs : HasSlot c P s)
      (ht : HasSlot c P t) : Fits c P (fixed (.binary op (.stack s) (.stack t)))
  | goto (target : Nat) (hb : P.buffer = none) : Fits c P (fixed (.goto target))
  | jumpUnless (target : Nat) (hb : P.buffer = none) : Fits c P (Draft.jumpUnless target)
  | new (cell : Nat) (hb : P.buffer = none) : Fits c P (fixed (.new cell))
  | fill {cell : Nat} {type : ValueType} (v : Value) (hb : P.buffer = some (cell, type)) :
      Fits c P (fixed (.move (.heap cell) (.constant v)))
  | join {cell : Nat} {t : Int} (hb : P.buffer = some (cell, .string)) (ht : HasSlot c P t) :
      Fits c P (fixed (.binary .concat (.heap cell) (.stack t)))
  | take {cell : Nat} {type : ValueType} (hb : P.buffer = some (cell, type)) :
      Fits c P (fixed (.move accumulator (.heap cell)))
  | release {cell : Nat} {type : ValueType} (hb : P.buffer = some (cell, type)) :
      Fits c P (fixed (.release cell))
  /-- Both copies of the arguments are cells of the frame. -/
  | call {name : String} {n : Nat} (hb : P.buffer = none) (harity : c.arity? name = some n)
      (hn : 2 * n ≤ P.height) : Fits c P (.call name)

end Point

def Instruction.jump? : Instruction → Option Nat
  | .goto target | .jumpUnless _ target => some target
  | _ => none

def Draft.jump? : Draft → Option Nat
  | fixed i => i.jump?
  | call _ => none

variable {c : Limits} {known : Nat → Point → Prop} {start : Nat} {P Q R : Point} {a b x y : List Draft}
  {d : Draft}

def Keeps (c : Limits) (known : Nat → Point → Prop) : Point → List Draft → Prop
  | _, [] => True
  | P, d :: code =>
    P.Fits c d ∧ (∀ target, d.jump? = some target → known target P) ∧ Keeps c known (P.after d) code

def Covers (known : Nat → Point → Prop) (start : Nat) (P : Point) (code : List Draft) : Prop :=
  ∀ x, x <+: code → known (start + x.length) (P.behind x)

structure Course (c : Limits) (start : Nat) (P : Point) (code : List Draft) (Q : Point) : Prop where
  keeps : ∀ known, Covers known start P code → Keeps c known P code
  behind : P.behind code = Q

namespace Point

theorem HasSlot.mono {c : Limits} {P Q : Point} {t : Int} (ht : P.HasSlot c t)
    (h : P.height ≤ Q.height) : Q.HasSlot c t :=
  ⟨ht.1, Int.lt_of_lt_of_le ht.2 (Int.ofNat_le.2 h)⟩

@[simp] theorem behind_nil (P : Point) : P.behind [] = P := rfl

@[simp] theorem behind_cons (P : Point) (d : Draft) (code : List Draft) :
    P.behind (d :: code) = (P.after d).behind code := rfl

@[simp] theorem behind_append (P : Point) (a b : List Draft) :
    P.behind (a ++ b) = (P.behind a).behind b := List.foldl_append

@[simp] theorem after_store (P : Point) (t : Int) : P.after (Draft.store t) = P := rfl

@[simp] theorem after_goto (P : Point) (target : Nat) : P.after (fixed (.goto target)) = P := rfl

@[simp] theorem after_jumpUnless (P : Point) (target : Nat) :
    P.after (Draft.jumpUnless target) = P := rfl

theorem behind_drop (P : Point) (n : Nat) :
    P.behind (Draft.drop n) = { P with height := P.height - n } := by
  unfold Draft.drop
  split
  · rename_i hn
    rw [hn]
    rfl
  · rfl

end Point

theorem keeps_append : Keeps c known P (a ++ b) ↔ Keeps c known P a ∧ Keeps c known (P.behind a) b := by
  induction a generalizing P with
  | nil => simp [Keeps]
  | cons d a ih => simp only [List.cons_append, Keeps, ih, and_assoc, Point.behind_cons]

/-- What an instruction among the code has, and where it leads. -/
theorem Keeps.fits (h : Keeps c known P (x ++ d :: y)) :
    (P.behind x).Fits c d ∧ ∀ target, d.jump? = some target → known target (P.behind x) := by
  obtain ⟨hd, hjump, -⟩ := (keeps_append.1 h).2
  exact ⟨hd, hjump⟩

/-- Nothing in the code takes the frame higher than it may be. -/
theorem Keeps.height_le (h : Keeps c known P a) (hP : P.height ≤ c.height) :
    (P.behind a).height ≤ c.height := by
  induction a generalizing P with
  | nil => exact hP
  | cons d a ih =>
    obtain ⟨hd, -, h⟩ := h
    refine ih h ?_
    cases hd with
    | push hroom _ => exact hroom
    | pushZero hroom _ => exact hroom
    | pushSlot hroom _ _ => exact hroom
    | drop _ => exact Nat.le_trans (Nat.sub_le _ _) hP
    | _ => exact hP

theorem Covers.left (h : Covers known start P (a ++ b)) : Covers known start P a :=
  fun x hx => h x (hx.trans (List.prefix_append a b))

theorem Covers.right (h : Covers known start P (a ++ b)) :
    Covers known (start + a.length) (P.behind a) b := by
  intro x hx
  have hax := h (a ++ x) ((List.prefix_append_right_inj a).2 hx)
  rwa [List.length_append, ← Nat.add_assoc, Point.behind_append] at hax

theorem Covers.first (h : Covers known start P a) : known start P := h [] (List.nil_prefix)

theorem Covers.last (h : Covers known start P a) : known (start + a.length) (P.behind a) :=
  h a (List.prefix_refl a)

/-- What is known behind some of the code. -/
theorem Covers.at (h : Covers known start P (a ++ b)) : known (start + a.length) (P.behind a) :=
  h a (List.prefix_append a b)

namespace Course

theorem nil (c : Limits) (start : Nat) (P : Point) : Course c start P [] P :=
  ⟨fun _ _ => trivial, rfl⟩

/-- An instruction that leads nowhere but to the next one. -/
theorem one (start : Nat) (hd : P.Fits c d) (hj : d.jump? = none) :
    Course c start P [d] (P.after d) := by
  refine ⟨fun known _ => ⟨hd, fun target ht => ?_, trivial⟩, rfl⟩
  rw [hj] at ht
  cases ht

theorem append (h : Course c start P a Q) (g : Course c (start + a.length) Q b R) :
    Course c start P (a ++ b) R where
  keeps := by
    intro known hk
    have hb := hk.right
    rw [h.behind] at hb
    rw [keeps_append, h.behind]
    exact ⟨h.keeps known hk.left, g.keeps known hb⟩
  behind := by rw [Point.behind_append, h.behind, g.behind]

theorem cons (hd : P.Fits c d) (hj : d.jump? = none)
    (g : Course c (start + 1) (P.after d) b R) : Course c start P (d :: b) R :=
  (one start hd hj).append g

theorem snoc (h : Course c start P a Q) (hd : Q.Fits c d) (hj : d.jump? = none) :
    Course c start P (a ++ [d]) (Q.after d) :=
  h.append (one _ hd hj)

theorem drop (start : Nat) {n : Nat} (hn : n ≤ P.height) :
    Course c start P (Draft.drop n) { P with height := P.height - n } := by
  refine ⟨fun known _ => ?_, P.behind_drop n⟩
  unfold Draft.drop
  split
  · exact trivial
  · exact ⟨.drop hn, nofun, trivial⟩

theorem cast (h : Course c start P a Q) (ha : a = b) (hQ : Q = R) : Course c start P b R := by
  subst ha hQ
  exact h

end Course
end Sigil
