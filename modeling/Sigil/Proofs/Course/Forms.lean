import Mathlib.Data.List.Forall2
import Sigil.Proofs.Course.Point
import Sigil.Proofs.Draft.Bounds
import Sigil.Proofs.Lookup

/-!
The code of an expression has a course, wherever there is room for as many cells as the expression
needs.
-/
namespace Sigil

open Draft (fixed)
open Operand (accumulator)

namespace Need

def pushed (i : Nat) : List Nat → Nat
  | [] => 0
  | n :: ns => max (i + max n 1) (pushed (i + 1) ns)

def paired : List Nat → List Nat → Nat
  | c :: cs, b :: bs => max (max c b) (paired cs bs)
  | _, _ => 0

end Need

mutual

/-- How many cells the frame may grow by while the code of an expression is run. -/
def Expr.need : Expr → Nat
  | .literal _ | .variable _ => 0
  | .assign _ value => value.need
  | .letIn _ values body =>
    max (Need.pushed 0 (Expr.needs values)) (values.length + body.need)
  | .loop condition body => 1 + max condition.need body.need
  | .select _ conditions branches => 1 + Need.paired (Expr.needs conditions) (Expr.needs branches)
  | .call _ arguments => max (Need.pushed 0 (Expr.needs arguments)) (2 * arguments.length)
  | .not operand => operand.need
  | .concat parts => Need.pushed 0 (Expr.needs parts)
  | .binary _ left right => max (max left.need (1 + right.need)) 2

def Expr.needs : List Expr → List Nat
  | [] => []
  | e :: es => e.need :: Expr.needs es

end

structure Layout.Suits (c : Limits) (h : Nat) (L : Layout) : Prop where
  offset : L.offset = h
  slots : ∀ x t, L.slot? x = some t → -(c.parameters : Int) ≤ t ∧ t < h
  arities : L.arity? = c.arity?

namespace Layout.Suits

variable {c : Limits} {h : Nat} {L : Layout}

theorem behind (hL : L.Suits c h) (code : List Draft) : (L.behind code).Suits c h :=
  ⟨hL.offset, hL.slots, hL.arities⟩

theorem raised (hL : L.Suits c h) (n : Nat) : (L.raised n).Suits c (h + n) where
  offset := by
    show L.offset + n = _
    rw [hL.offset, Int.natCast_add]
  slots := by
    intro x t ht
    have := hL.slots x t ht
    omega
  arities := hL.arities

theorem bind (hL : L.Suits c h) (names : List String) {slots : List Int}
    (hs : ∀ t ∈ slots, -(c.parameters : Int) ≤ t ∧ t < h) : (L.bind names slots).Suits c h where
  offset := hL.offset
  slots := by
    intro x t ht
    simp only [Layout.bind] at ht
    split at ht
    · exact hs t (List.of_mem_zip (mem_of_lookup ht)).2
    · exact hL.slots x t ht
  arities := hL.arities

/-- The next cells of the frame are slots of its own. -/
theorem mem_slots (hL : L.Suits c h) {n : Nat} {t : Int} (ht : t ∈ L.slots n) :
    -(c.parameters : Int) ≤ t ∧ t < (h + n : Nat) := by
  have := Layout.mem_slots ht
  have := hL.offset
  omega

/-- The cell of a result is a slot of its own. -/
theorem result_slot (hL : L.Suits c h) : Point.HasSlot c ⟨h + 1, none⟩ L.offset := by
  have hoffset := hL.offset
  constructor
  · omega
  · show L.offset < ((h + 1 : Nat) : Int)
    omega

theorem slot (hL : L.Suits c h) {x : String} {t : Int} (ht : L.slot? x = some t)
    (buffer : Option (Nat × ValueType)) : Point.HasSlot c ⟨h, buffer⟩ t := hL.slots x t ht

end Layout.Suits

namespace Block

variable {block l r : Block} {blocks : List Block} {n k : Nat} {ns : List Nat}

def Needs (block : Block) (n : Nat) : Prop :=
  ∀ c L h code, block L = some code → L.Suits c h → h + n ≤ c.height →
    Course c L.start ⟨h, none⟩ code ⟨h, none⟩

theorem needs_literal (v : Value) : Needs (literal v) 0 := by
  rintro c L h _ ⟨⟩ _ _
  exact .one _ (.literal v) rfl

theorem needs_lookup (x : String) : Needs (lookup x) 0 := by
  intro c L h _ hcode hL _
  obtain ⟨t, ht, rfl⟩ := Option.map_eq_some_iff.1 hcode
  exact .one _ (.load (hL.slot ht _)) rfl

theorem needs_assign (x : String) (hv : Needs block n) : Needs (assign x block) n := by
  intro c L h _ hblock hL hroom
  obtain ⟨t, ht, code, hcode, rfl⟩ := assign_eq_some.1 hblock
  exact (hv c L h code hcode hL hroom).snoc (.store (hL.slot ht _)) rfl

theorem needs_not (ho : Needs block n) : Needs (Block.not block) n := by
  intro c L h _ hblock hL hroom
  obtain ⟨code, hcode, rfl⟩ := not_eq_some.1 hblock
  exact (ho c L h code hcode hL hroom).snoc .not rfl

/-- A value that is worked out and pushed. -/
theorem Needs.push (hb : Needs block n) {c : Limits} {L : Layout} {h : Nat} {code : List Draft}
    (hcode : block L = some code) (hL : L.Suits c h) (hroom : h + max n 1 ≤ c.height) :
    Course c L.start ⟨h, none⟩ (code ++ [Draft.push]) ⟨h + 1, none⟩ :=
  (hb c L h code hcode hL (by omega)).snoc (.push (show h < c.height by omega) rfl) rfl

theorem course_values {c : Limits} {L : Layout} {h i : Nat} {code : List Draft}
    (hb : List.Forall₂ Needs blocks ns) (hcode : values blocks L = some code)
    (hL : L.Suits c (h + i)) (hroom : h + Need.pushed i ns ≤ c.height) :
    Course c L.start ⟨h + i, none⟩ code ⟨h + i + blocks.length, none⟩ := by
  induction hb generalizing L i code with
  | nil =>
    cases hcode
    exact .nil c _ _
  | cons hfirst _ ih =>
    obtain ⟨first, h1, rest, h2, rfl⟩ := values_cons_eq_some.1 hcode
    simp only [Need.pushed] at hroom
    have hpush := hfirst.push h1 hL (by omega)
    have hrest := ih (i := i + 1) h2 ((hL.behind _).raised 1) (by omega)
    refine (hpush.append hrest).cast rfl ?_
    simp only [List.length_cons, Point.mk.injEq, and_true]
    omega

theorem needs_binary (op : Operator) (e : Expr) (hl : Needs l n) (hr : Needs r k) :
    Needs (binary op (updateTarget op e) l r) (max (max n (1 + k)) 2) := by
  intro c L h _ hblock hL hroom
  obtain ⟨target, htarget, a, ha, b, hb, rfl⟩ := binary_eq_some.1 hblock
  have hleft := hl.push ha hL (by omega)
  have hright := hr.push hb ((hL.behind _).raised 1) (by omega)
  -- both values are cells of the frame
  have hslot : ∀ t : Int, L.offset ≤ t → t < L.offset + 2 → Point.HasSlot c ⟨h + 1 + 1, none⟩ t := by
    intro t hlow hhigh
    have := hL.offset
    constructor
    · omega
    · show t < ((h + 1 + 1 : Nat) : Int)
      omega
  have hstore : ∀ start, Course c start ⟨h + 1 + 1, none⟩ (target.map Draft.store).toList
      ⟨h + 1 + 1, none⟩ := by
    intro start
    cases target with
    | none => exact .nil c _ _
    | some t =>
      refine .one _ (.store ?_) rfl
      unfold updateTarget at htarget
      split at htarget
      · split at htarget
        · obtain ⟨t, ht, ⟨⟩⟩ := Option.map_eq_some_iff.1 htarget
          exact (((hL.raised 1).raised 1).slot ht _)
        · cases htarget
      · cases htarget
  refine (hleft.append hright).append (.cons (.binary _ rfl (hslot _ ?_ ?_) (hslot _ ?_ ?_)) rfl
    (.cons (.load (hslot _ ?_ ?_)) rfl
      ((hstore _).append ((Course.drop _ (Nat.le_add_left 2 h)).cast rfl rfl))))
  all_goals omega

theorem needs_letIn (names : List String) (hlength : blocks.length = k)
    (hv : List.Forall₂ Needs blocks ns) (hb : Needs block n) :
    Needs (letIn names blocks block) (max (Need.pushed 0 ns) (k + n)) := by
  intro c L h _ hblock hL hroom
  subst hlength
  obtain ⟨vs, hvs, -, code, hcode, rfl⟩ := letIn_eq_some.1 hblock
  have hvalues := course_values hv hvs (h := h) (i := 0) hL (by omega)
  have hscope := ((hL.behind vs).raised blocks.length).bind names fun t ht => hL.mem_slots ht
  have hbody := hb c _ _ code hcode hscope (by omega)
  exact (hvalues.append hbody).append
    ((Course.drop _ (Nat.le_add_left blocks.length h)).cast rfl (by simp))

theorem course_join {c : Limits} {h : Nat} {slots : List Int} (start cell : Nat)
    (hs : ∀ t ∈ slots, -(c.parameters : Int) ≤ t ∧ t < h) :
    Course c start ⟨h, some (cell, .string)⟩ (join cell slots) ⟨h, some (cell, .string)⟩ := by
  induction slots generalizing start with
  | nil => exact .nil c _ _
  | cons t slots ih =>
    rw [List.forall_mem_cons] at hs
    exact .cons (.join rfl hs.1) rfl (ih _ hs.2)

theorem needs_concat (hp : List.Forall₂ Needs blocks ns) :
    Needs (concat blocks) (Need.pushed 0 ns) := by
  intro c L h _ hblock hL hroom
  obtain ⟨vs, hvs, rfl⟩ := concat_eq_some.1 hblock
  have hvalues := course_values hp hvs (h := h) (i := 0) hL hroom
  have hjoin := fun start => course_join start (L.behind vs).cell
    fun t (ht : t ∈ L.slots blocks.length) => hL.mem_slots ht
  have hdrop : ∀ start, Course c start ⟨h + blocks.length, none⟩ (Draft.drop blocks.length)
      ⟨h, none⟩ := fun start =>
    (Course.drop start (Nat.le_add_left blocks.length h)).cast rfl (by simp)
  exact hvalues.append (.cons (.new _ rfl) rfl (.cons (.fill _ rfl) rfl
    ((hjoin _).append (.cons (.take rfl) rfl (.cons (.release rfl) rfl (hdrop _))))))

theorem behind_leave {P : Point} {result : Int} {exit : Nat} (mode : Mode) :
    P.behind (leave mode result exit) = P := by
  unfold leave
  split <;> rfl

theorem keeps_leave {c : Limits} {known : Nat → Point → Prop} {P : Point} {result : Int}
    {exit : Nat} (mode : Mode) (hb : P.buffer = none) (hr : P.HasSlot c result)
    (hexit : known exit P) : Keeps c known P (leave mode result exit) := by
  unfold leave
  split
  · refine ⟨.store hr, nofun, .goto exit hb, fun target ht => ?_, trivial⟩
    cases ht
    exact hexit
  · exact ⟨.store hr, nofun, trivial⟩

/-- A single arm, with the place behind the selection and that of the next arm. -/
theorem keeps_arm {c : Limits} {known : Nat → Point → Prop} {mode : Mode} {result : Int} {P : Point}
    {start next exit : Nat} {test body : List Draft} (ht : Course c start P test P)
    (hb : Course c (start + (test.length + 1)) P body P) (hP : P.buffer = none)
    (hr : P.HasSlot c result) (hexit : known exit P) (hnext : known next P)
    (hk : Covers known start P
      (test ++ [Draft.jumpUnless next] ++ (body ++ leave mode result exit))) :
    Keeps c known P (test ++ [Draft.jumpUnless next] ++ (body ++ leave mode result exit)) := by
  have hbody := hk.right.left
  have hthrough : P.behind (test ++ [Draft.jumpUnless next]) = P := by simp [ht.behind]
  rw [hthrough, List.length_append, List.length_singleton] at hbody
  rw [keeps_append, keeps_append, keeps_append, hthrough, ht.behind, hb.behind]
  refine ⟨⟨ht.keeps known hk.left.left, .jumpUnless next hP, fun target ht => ?_, trivial⟩,
    hb.keeps known hbody, keeps_leave mode hP hr hexit⟩
  cases ht
  exact hnext

/-- Between the arms, and where they lead to, the frame is as high as in front of them. -/
theorem keeps_arms {c : Limits} {mode : Mode} {result : Int} {conditions branches : List Block}
    {ns ks : List Nat} {L : Layout} {h : Nat} {code : Nat → List Draft}
    (hc : List.Forall₂ Needs conditions ns) (hb : List.Forall₂ Needs branches ks)
    (hcode : arms mode result conditions branches L = some code) (hL : L.Suits c h)
    (hr : Point.HasSlot c ⟨h, none⟩ result) (hroom : h + Need.paired ns ks ≤ c.height) (exit : Nat) :
    (∀ known, Covers known L.start ⟨h, none⟩ (code exit) → known exit ⟨h, none⟩ →
      Keeps c known ⟨h, none⟩ (code exit)) ∧ Point.behind ⟨h, none⟩ (code exit) = ⟨h, none⟩ := by
  induction hc generalizing branches ks L code with
  | nil =>
    simp only [arms, Option.some.injEq] at hcode
    subst hcode
    exact ⟨fun _ _ _ => trivial, rfl⟩
  | cons hcondition _ ih =>
    cases hb with
    | nil =>
      simp only [arms, Option.some.injEq] at hcode
      subst hcode
      exact ⟨fun _ _ _ => trivial, rfl⟩
    | cons hbranch hb =>
      obtain ⟨test, htest, body, hbody, rest, hrest, rfl⟩ := arms_cons_eq_some.1 hcode
      simp only [Need.paired] at hroom
      have hcourse := hcondition c L h test htest hL (by omega)
      have hround := hbranch c _ h body hbody (hL.behind _) (by omega)
      obtain ⟨hkeeps, hbehind⟩ := ih hb hrest (hL.behind _) (by omega)
      have hplace : (L.behind (test ++ [Draft.jumpUnless 0] ++ (body ++ leave mode result 0))).start =
          L.start + (test ++ [Draft.jumpUnless 0] ++ (body ++ leave mode result exit)).length := by
        simp [Layout.behind, length_leave mode result exit]
      generalize (L.behind (test ++ [Draft.jumpUnless 0] ++ (body ++ leave mode result 0))).start =
        next at hplace hkeeps ⊢
      have hthrough : Point.behind ⟨h, none⟩ (test ++ [Draft.jumpUnless next] ++
          (body ++ leave mode result exit)) = ⟨h, none⟩ := by
        simp [hcourse.behind, hround.behind, behind_leave]
      refine ⟨fun known hk hexit => ?_, by rw [Point.behind_append, hthrough, hbehind]⟩
      have hskip := hk.at
      have hrest := hk.right
      simp only [hthrough, List.length_append, List.length_singleton] at hplace hskip hrest
      rw [← hplace] at hskip hrest
      rw [keeps_append, hthrough]
      refine ⟨keeps_arm hcourse ?_ rfl hr hexit hskip hk.left, hkeeps known hrest hexit⟩
      simpa [Layout.behind] using hround

/-- The result of a loop or a selection is loaded, and its cell is given back. -/
theorem course_result {c : Limits} {L : Layout} {h : Nat} (hL : L.Suits c h) (start : Nat) :
    Course c start ⟨h + 1, none⟩ (Draft.load L.offset :: Draft.drop 1) ⟨h, none⟩ :=
  .cons (.load hL.result_slot) rfl (Course.drop _ (Nat.le_add_left 1 h))

theorem needs_select {conditions branches : List Block} {ks : List Nat} (mode : Mode)
    (hc : List.Forall₂ Needs conditions ns) (hb : List.Forall₂ Needs branches ks) :
    Needs (select mode conditions branches) (1 + Need.paired ns ks) := by
  intro c L h _ hblock hL hroom
  obtain ⟨code, hcode, rfl⟩ := select_eq_some.1 hblock
  have hlength := length_arms hcode
  generalize hexit : ((L.behind [pushZero]).raised 1).start + (code 0).length = exit
  rw [hlength 0 exit] at hexit
  obtain ⟨hkeeps, hbehind⟩ :=
    keeps_arms hc hb hcode ((hL.behind _).raised 1) (hL.result_slot) (by omega) exit
  -- the place behind the arms is the one where the result is loaded
  have harms : Course c (L.start + 1) ⟨h + 1, none⟩ (code exit) ⟨h + 1, none⟩ := by
    refine ⟨fun known hk => hkeeps known hk ?_, hbehind⟩
    have hlast := hk.last
    rw [hbehind] at hlast
    exact hexit ▸ hlast
  exact .cons (.pushZero (show h < c.height by omega) rfl) rfl (harms.append (course_result hL _))

theorem course_rounds {c : Limits} {P : Point} {result : Int} {start : Nat} {test code : List Draft}
    (ht : Course c start P test P) (hcode : Course c (start + (test.length + 1)) P code P)
    (hP : P.buffer = none) (hr : P.HasSlot c result) {exit : Nat}
    (hexit : start + (test.length + 1) + code.length + 2 = exit) :
    Course c start P (test ++ [Draft.jumpUnless exit] ++
      (code ++ [Draft.store result, fixed (.goto start)])) P where
  keeps := by
    intro known hk
    have hfirst := hk.first
    have hlast := hk.last
    have hbody := hk.right.left
    simp only [Point.behind_append, Point.behind_cons, Point.behind_nil, Point.after_jumpUnless,
      Point.after_store, Point.after_goto, ht.behind, hcode.behind, List.length_append,
      List.length_cons, List.length_nil] at hlast hbody
    rw [keeps_append, keeps_append, keeps_append, Point.behind_append, ht.behind]
    refine ⟨⟨ht.keeps known hk.left.left, .jumpUnless exit hP, fun target h => ?_, trivial⟩,
      hcode.keeps known hbody, ?_⟩
    · cases h
      rwa [← hexit, Nat.add_assoc, Nat.add_assoc]
    · simp only [Point.behind_cons, Point.behind_nil, Point.after_jumpUnless, hcode.behind]
      refine ⟨.store hr, nofun, .goto start hP, fun target h => ?_, trivial⟩
      cases h
      exact hfirst
  behind := by simp [ht.behind, hcode.behind]

theorem needs_loop {condition body : Block} (hc : Needs condition n) (hb : Needs body k) :
    Needs (loop condition body) (1 + max n k) := by
  intro c L h _ hblock hL hroom
  obtain ⟨test, htest, code, hcode, rfl⟩ := loop_eq_some.1 hblock
  have hinner := (hL.behind [pushZero]).raised 1
  have htest' := hc c _ _ test htest hinner (by omega)
  have hcode' := hb c _ _ code hcode (hinner.behind _) (by omega)
  have hround : (((L.behind [pushZero]).raised 1).behind (test ++ [Draft.jumpUnless 0])).start =
      ((L.behind [pushZero]).raised 1).start + (test.length + 1) := by simp [Layout.behind]
  rw [hround] at hcode' ⊢
  have hrounds := course_rounds htest' hcode' rfl hL.result_slot rfl
  exact .cons (.pushZero (show h < c.height by omega) rfl) rfl (hrounds.append (course_result hL _))

/-- The arguments are pushed once more. -/
theorem course_window {c : Limits} {h : Nat} {slots : List Int} (start : Nat)
    (hs : ∀ t ∈ slots, Point.HasSlot c ⟨h, none⟩ t) (hroom : h + slots.length ≤ c.height) :
    Course c start ⟨h, none⟩ (slots.map fun slot => fixed (.push (.stack slot)))
      ⟨h + slots.length, none⟩ := by
  induction slots generalizing h start with
  | nil => exact .nil c _ _
  | cons t slots ih =>
    rw [List.forall_mem_cons] at hs
    rw [List.length_cons] at hroom
    have hrest := ih (h := h + 1) (start + 1) (fun u hu => (hs.2 u hu).mono (Nat.le_succ h))
      (by omega)
    refine .cons (.pushSlot (show h < c.height by omega) rfl hs.1) rfl (hrest.cast rfl ?_)
    simp only [List.length_cons, Point.mk.injEq, and_true]
    omega

theorem needs_call (name : String) (hlength : blocks.length = k)
    (ha : List.Forall₂ Needs blocks ns) :
    Needs (call name blocks) (max (Need.pushed 0 ns) (2 * k)) := by
  intro c L h _ hblock hL hroom
  subst hlength
  obtain ⟨harity, vs, hvs, rfl⟩ := call_eq_some.1 hblock
  rw [hL.arities] at harity
  have hvalues := course_values ha hvs (h := h) (i := 0) hL (by omega)
  have hwindow := fun start => course_window (c := c) (h := h + blocks.length) start
    (fun t (ht : t ∈ L.slots blocks.length) => hL.mem_slots ht) (by
      rw [Layout.length_slots]
      omega)
  simp only [Layout.length_slots] at hwindow
  have hdrop : ∀ start, Course c start ⟨h + blocks.length + blocks.length, none⟩
      (Draft.drop (2 * blocks.length)) ⟨h, none⟩ := by
    intro start
    refine (Course.drop start (show 2 * blocks.length ≤ h + blocks.length + blocks.length by
      omega)).cast rfl ?_
    simp only [Point.mk.injEq, and_true]
    omega
  have hcall : ∀ start, Course c start ⟨h + blocks.length + blocks.length, none⟩
      (Draft.call name :: Draft.drop (2 * blocks.length)) ⟨h, none⟩ := fun start =>
    .cons (.call rfl harity (show 2 * _ ≤ h + blocks.length + blocks.length by omega)) rfl
      (hdrop _)
  exact (hvalues.append (hwindow _)).append (hcall _)

end Block

@[simp] theorem Expr.length_blocks (es : List Expr) : (Expr.blocks es).length = es.length := by
  induction es with
  | nil => rfl
  | cons e es ih => rw [Expr.blocks, List.length_cons, List.length_cons, ih]

mutual

theorem Expr.needs_block : ∀ e : Expr, e.block.Needs e.need
  | .literal v => Block.needs_literal v
  | .variable x => Block.needs_lookup x
  | .assign x value => Block.needs_assign x (needs_block value)
  | .letIn names values body =>
    Block.needs_letIn names (Expr.length_blocks values) (needs_blocks values) (needs_block body)
  | .loop condition body => Block.needs_loop (needs_block condition) (needs_block body)
  | .select mode conditions branches =>
    Block.needs_select mode (needs_blocks conditions) (needs_blocks branches)
  | .call name arguments =>
    Block.needs_call name (Expr.length_blocks arguments) (needs_blocks arguments)
  | .not operand => Block.needs_not (needs_block operand)
  | .concat parts => Block.needs_concat (needs_blocks parts)
  | .binary op left right => Block.needs_binary op left (needs_block left) (needs_block right)

theorem Expr.needs_blocks : ∀ es : List Expr,
    List.Forall₂ Block.Needs (Expr.blocks es) (Expr.needs es)
  | [] => .nil
  | e :: es => .cons (needs_block e) (needs_blocks es)

end
end Sigil
