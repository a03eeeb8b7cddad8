import Mathlib.Algebra.GroupWithZero.Nat
import Sigil.Proofs.Course.Point
import Sigil.Proofs.Session.Reuse

/-!
What lowering an expression adds to a state, whatever its scopes say, so that there need be no draft: code
whose jumps lead to one another, calls to be linked, slots of new ids, and one heap cell for every
concatenation. While a form is lowered, some of its jumps are still to be patched.
-/
namespace Sigil

open Operand (accumulator)

mutual

/-- The concatenations that an expression is compiled from. A selection without as many branches as
conditions has only those of the ones that are paired. -/
def Expr.concats : Expr → Nat
  | .literal _ | .variable _ => 0
  | .assign _ value => value.concats
  | .letIn _ values body => (Expr.concatsOf values).sum + body.concats
  | .loop condition body => condition.concats + body.concats
  | .select _ conditions branches =>
    (List.zipWith (· + ·) (Expr.concatsOf conditions) (Expr.concatsOf branches)).sum
  | .call _ arguments => (Expr.concatsOf arguments).sum
  | .not operand => operand.concats
  | .concat parts => (Expr.concatsOf parts).sum + 1
  | .binary _ left right => left.concats + right.concats

def Expr.concatsOf : List Expr → List Nat
  | [] => []
  | e :: es => e.concats :: Expr.concatsOf es

end

namespace Lowering

/-- From `s` to `t` the stack has grown by `n`, heap cells are taken, and the new instructions lead to one
another, or right behind the last one, but for the pending jumps. -/
structure Adds (s : Lowering) (n : Int) (cells : Nat) (pending : List Nat) (t : Lowering) : Prop
    extends Rises s n cells t where
  size : s.code.size ≤ t.code.size
  kept : ∀ address < s.code.size, t.code.get? address = s.code.get? address
  sites : ∃ added, t.linker.sites = s.linker.sites ++ added ∧ ∀ call ∈ added,
    s.code.size ≤ call.1 ∧ ∃ target, t.code.get? call.1 = some (.call target)
  jumps : ∀ address i target, s.code.size ≤ address → address ∉ pending →
    t.code.get? address = some i → i.jump? = some target → s.code.size ≤ target ∧ target ≤ t.code.size
  unpatched : ∀ address ∈ pending, s.code.size ≤ address ∧
    ∃ i, t.code.get? address = some i ∧ i.jump?.isSome

variable {α β : Type} {s t u : Lowering} {n m : Int} {k l : Nat} {p q : List Nat}

theorem Adds.cast (h : Adds s n k p t) (hn : n = m) (hk : k = l) (hp : p = q) : Adds s m l q t := by
  subst hn hk hp
  exact h

/-- Nothing is added to the code. -/
theorem Adds.of_code (h : Rises s n k t) (hcode : t.code = s.code)
    (hsites : t.linker.sites = s.linker.sites) : Adds s n k [] t where
  toRises := h
  size := Nat.le_of_eq (by rw [hcode])
  kept := fun _ _ => by rw [hcode]
  sites := ⟨[], by simp [hsites], nofun⟩
  jumps := fun address i target haddress _ hget => by
    rw [hcode] at hget
    exact absurd (Code.lt_size hget) (Nat.not_lt.2 haddress)
  unpatched := nofun

theorem Adds.refl (s : Lowering) : Adds s 0 0 [] s := .of_code (.refl s) rfl rfl

theorem Adds.trans (h : Adds s n k p t) (g : Adds t m l q u) : Adds s (n + m) (k + l) (p ++ q) u where
  toRises := h.toRises.trans g.toRises
  size := Nat.le_trans h.size g.size
  kept := fun address haddress =>
    (g.kept address (Nat.lt_of_lt_of_le haddress h.size)).trans (h.kept address haddress)
  sites := by
    obtain ⟨x, hx, hx'⟩ := h.sites
    obtain ⟨y, hy, hy'⟩ := g.sites
    refine ⟨x ++ y, by rw [hy, hx, List.append_assoc], List.forall_mem_append.2 ⟨?_, ?_⟩⟩
    · intro call hcall
      obtain ⟨hle, target, htarget⟩ := hx' call hcall
      exact ⟨hle, target, (g.kept _ (Code.lt_size htarget)).trans htarget⟩
    · exact fun call hcall => ⟨Nat.le_trans h.size (hy' call hcall).1, (hy' call hcall).2⟩
  jumps := by
    intro address i target haddress hpending hget hjump
    rw [List.mem_append, not_or] at hpending
    by_cases hold : address < t.code.size
    · rw [g.kept address hold] at hget
      have := h.jumps address i target haddress hpending.1 hget hjump
      exact ⟨this.1, Nat.le_trans this.2 g.size⟩
    · have := g.jumps address i target (Nat.not_lt.1 hold) hpending.2 hget hjump
      exact ⟨Nat.le_trans h.size this.1, this.2⟩
  unpatched := by
    refine List.forall_mem_append.2 ⟨fun address haddress => ?_, fun address haddress => ?_⟩
    · obtain ⟨hle, i, hi, hjump⟩ := h.unpatched address haddress
      exact ⟨hle, i, (g.kept address (Code.lt_size hi)).trans hi, hjump⟩
    · exact ⟨Nat.le_trans h.size (g.unpatched address haddress).1, (g.unpatched address haddress).2⟩

/-- One more instruction. If it is a jump, it is pending. -/
theorem Adds.one (i : Instruction) (h : Rises s n k t) {added : List (Nat × String)}
    (hcode : t.code = s.code.emit i) (hsites : t.linker.sites = s.linker.sites ++ added)
    (hcalls : ∀ call ∈ added, call.1 = s.code.size ∧ ∃ target, i = .call target) :
    Adds s n k (if i.jump?.isSome then [s.code.size] else []) t := by
  have hsize : t.code.size = s.code.size + 1 := by rw [hcode, Code.size_emit]
  have hlast : t.code.get? s.code.size = some i := by rw [hcode, Code.get?_emit, if_pos rfl]
  exact
    { toRises := h
      size := Nat.le_of_lt (by omega)
      kept := fun address haddress => by
        rw [hcode, Code.get?_emit, if_neg (Nat.ne_of_lt haddress)]
      sites := by
        refine ⟨added, hsites, fun call hcall => ?_⟩
        obtain ⟨haddress, target, rfl⟩ := hcalls call hcall
        exact ⟨Nat.le_of_eq haddress.symm, target, haddress ▸ hlast⟩
      jumps := by
        intro address j target haddress hpending hget hjump
        have heq : address = s.code.size := by
          have := Code.lt_size hget
          omega
        subst heq
        rw [hlast] at hget
        cases hget
        simp [hjump] at hpending
      unpatched := by
        intro address haddress
        split at haddress
        · next hjump =>
          rw [List.mem_singleton] at haddress
          exact ⟨Nat.le_of_eq haddress.symm, i, haddress ▸ hlast, hjump⟩
        · cases haddress }

/-- A jump that leads to where the code has grown is no longer pending. -/
theorem Adds.settle (h : Adds s n k p t) (hq : ∀ address ∈ q, address ∈ p)
    (hp : ∀ address ∈ p, address ∉ q → ∀ i target, t.code.get? address = some i →
      i.jump? = some target → s.code.size ≤ target ∧ target ≤ t.code.size) : Adds s n k q t :=
  { h with
    jumps := by
      intro address i target haddress hpending hget hjump
      by_cases hold : address ∈ p
      · exact hp address hold hpending i target hget hjump
      · exact h.jumps address i target haddress hold hget hjump
    unpatched := fun address haddress => h.unpatched address (hq address haddress) }

theorem exists_retarget? {i : Instruction} (hi : i.jump?.isSome) (target : Nat) :
    ∃ j, i.retarget? target = some j ∧ j.jump? = some target := by
  cases i <;> simp_all [Instruction.jump?, Instruction.retarget?]

/-- A jump is replaced by the same jump to the end of the code. -/
theorem patchHere_jump {address : Nat} {i : Instruction} (hi : t.code.get? address = some i)
    (hjump : i.jump?.isSome) (h : patchHere address t = .ok () u) :
    ∃ code j, u = { t with code } ∧ code.labels = t.code.labels ∧ code.size = t.code.size ∧
      (∀ other ≠ address, code.get? other = t.code.get? other) ∧ code.get? address = some j ∧
      j.jump? = some t.code.size := by
  obtain ⟨j, hj, htarget⟩ := exists_retarget? hjump t.code.size
  have hpatch := Code.patch?_eq_some.2 ⟨i, j, hi, hj, rfl⟩
  refine ⟨{ t.code with instructions := t.code.instructions.setIfInBounds address j }, j, ?_, rfl,
    Code.size_of_patch? hpatch, fun other ho => Code.get?_of_patch? hpatch ho,
    Array.getElem?_setIfInBounds_self_of_lt (Code.lt_size hi), htarget⟩
  cases h
  show ({ t with code := (t.code.patch? address t.code.size).getD t.code } : Lowering) = _
  rw [hpatch]
  rfl

/-- A pending jump is patched. -/
theorem Adds.patch {address : Nat} (h : Adds s n k (address :: p) t)
    (hpatch : patchHere address t = .ok () u) : Adds s n k p u := by
  obtain ⟨haddress, i, hi, hjump⟩ := h.unpatched address List.mem_cons_self
  obtain ⟨code, j, rfl, hlabels, hsize, hothers, hj, htarget⟩ := patchHere_jump hi hjump hpatch
  exact
    { h with
      labels := hlabels.trans h.labels
      size := hsize ▸ h.size
      kept := fun other hother =>
        (hothers other (Nat.ne_of_lt (Nat.lt_of_lt_of_le hother haddress))).trans (h.kept other hother)
      sites := by
        obtain ⟨added, hadded, hcalls⟩ := h.sites
        refine ⟨added, hadded, fun call hcall => ?_⟩
        obtain ⟨hle, target, hget⟩ := hcalls call hcall
        have hne : call.1 ≠ address := by
          rintro rfl
          rw [hi] at hget
          cases hget
          cases hjump
        exact ⟨hle, target, (hothers _ hne).trans hget⟩
      jumps := by
        intro other k target hother hpending hget hk
        rw [hsize]
        by_cases ho : other = address
        · subst ho
          rw [hj] at hget
          cases hget
          rw [htarget] at hk
          cases hk
          exact ⟨h.size, Nat.le_refl _⟩
        · exact h.jumps other k target hother (by simp [ho, hpending]) (hothers other ho ▸ hget) hk
      unpatched := by
        intro other hother
        by_cases ho : other = address
        · subst ho
          exact ⟨haddress, j, hj, by rw [htarget]; rfl⟩
        · obtain ⟨hle, k, hk, hsome⟩ := h.unpatched other (List.mem_cons_of_mem _ hother)
          exact ⟨hle, k, (hothers other ho).trans hk, hsome⟩ }

theorem Adds.unbound {names : List String} {slots : List Int} (h : Adds (s.bound names slots) n k p t)
    (hp : popScope t = .ok () u) : Adds s n k p u := by
  have hrises := h.toRises.unbound hp
  cases hp
  exact { h with toRises := hrises }

def Raises (n : Int) (k : Nat) (x : Lower α) : Prop := ∀ s a t, x s = .ok a t → Adds s n k [] t

theorem Raises.bind {x : Lower α} {f : α → Lower β} (hx : Raises n k x) (hf : ∀ a, Raises m l (f a)) :
    Raises (n + m) (k + l) (x >>= f) := by
  intro s b u h
  obtain ⟨a, t, hs, ht⟩ := bind_eq_ok.1 h
  exact (hx s a t hs).trans (hf a t b u ht)

theorem Raises.cast {x : Lower α} (hx : Raises n k x) (hn : n = m) (hk : k = l) : Raises m l x := by
  subst hn hk
  exact hx

/-- The first of two actions leaves the stack as high as it was, and takes no cell. -/
theorem Raises.next {x : Lower α} {f : α → Lower β} (hx : Raises 0 0 x) (hf : ∀ a, Raises n k (f a)) :
    Raises n k (x >>= f) := (hx.bind hf).cast (Int.zero_add n) (Nat.zero_add k)

/-- The second of two actions leaves the stack as high as it was, and takes no cell. -/
theorem Raises.andThen {x : Lower α} {f : α → Lower β} (hx : Raises n k x) (hf : ∀ a, Raises 0 0 (f a)) :
    Raises n k (x >>= f) := (hx.bind hf).cast (Int.add_zero n) rfl

/-- An action that leaves the state as it is. -/
theorem Raises.of_eq {x : Lower α} (h : ∀ s a t, x s = .ok a t → t = s) : Raises 0 0 x := by
  intro s a t hs
  rw [h s a t hs]
  exact .refl s

theorem raises_pure (a : α) : Raises 0 0 (pure a : Lower α) := .of_eq fun _ _ _ h => by
  cases h
  rfl

theorem adds_emit (i : Instruction) (h : emit i s = .ok () t) :
    Adds s 0 0 (if i.jump?.isSome then [s.code.size] else []) t := by
  cases h
  exact .one i (.of_symbols rfl rfl rfl (Int.add_zero _).symm rfl) rfl (List.append_nil _).symm nofun

/-- A jump whose target is not known yet. -/
theorem adds_jump {i : Instruction} (hi : i.jump?.isSome) (h : emit i s = .ok () t) :
    Adds s 0 0 [s.code.size] t := (adds_emit i h).cast rfl rfl (if_pos hi)

/-- A jump to where the code has grown so far. -/
theorem Adds.goto {target : Nat} (h : Adds s n k p t) (hfirst : s.code.size ≤ target)
    (hlast : target ≤ t.code.size) (hgoto : Lowering.emit (.goto target) t = .ok () u) :
    Adds s n k p u := by
  have g : Adds s n k (p ++ [t.code.size]) u :=
    (h.trans (adds_jump rfl hgoto)).cast (Int.add_zero n) rfl rfl
  have hsize : u.code.size = t.code.size + 1 := by
    cases hgoto
    exact Code.size_emit _ _
  refine g.settle (fun address haddress => List.mem_append_left _ haddress) ?_
  intro address haddress hpending i destination hget hjump
  have heq : address = t.code.size :=
    List.mem_singleton.1 ((List.mem_append.1 haddress).resolve_left hpending)
  subst heq
  cases hgoto
  rw [Code.get?_emit, if_pos rfl] at hget
  cases hget
  cases hjump
  omega

theorem raises_emit {i : Instruction} (hi : i.jump? = none) : Raises 0 0 (emit i) :=
  fun _ _ _ h => (adds_emit i h).cast rfl rfl (by simp [hi])

theorem raises_push (source : Operand) : Raises 1 0 (push source) := by
  rintro s _ t ⟨⟩
  exact .one (.push source) (.of_symbols rfl rfl rfl rfl rfl) rfl (List.append_nil _).symm nofun

theorem raises_drop (k : Nat) : Raises (-k) 0 (drop k) := by
  unfold drop
  split
  · rintro s _ t ⟨⟩
    exact .one (.drop k) (.of_symbols rfl rfl rfl Int.sub_eq_add_neg rfl) rfl (List.append_nil _).symm
      nofun
  · next hk =>
    rw [not_not.1 hk]
    exact raises_pure ()

theorem raises_call (name : String) : Raises 0 0 (call name) := by
  rintro s _ t ⟨⟩
  refine .one (.call 0) (.of_symbols rfl rfl rfl (Int.add_zero _).symm rfl) rfl rfl fun call hcall => ?_
  rw [List.mem_singleton.1 hcall]
  exact ⟨rfl, 0, rfl⟩

theorem raises_freshHeap : Raises 0 1 freshHeap := by
  rintro s _ t ⟨⟩
  exact .of_code (.of_symbols rfl rfl rfl (Int.add_zero _).symm rfl) rfl rfl

theorem raises_slot (x : String) : Raises 0 0 (slot x) := .of_eq fun _ _ _ h => (slot_eq_ok h).1

theorem raises_checkArity (name : String) (found : Nat) : Raises 0 0 (checkArity name found) :=
  .of_eq fun _ _ _ h => (checkArity_eq_ok h).1

theorem raises_updateTarget (op : Operator) (left : Expr) : Raises 0 0 (updateTarget op left) :=
  .of_eq fun _ _ _ h => (updateTarget_eq_ok h).1

section Forms

variable {condition body left right : Lower Unit} {parts conditions branches : List (Lower Unit)}
  {ks ls : List Nat}

/-- A list of actions, each of which leaves the stack higher by `n`. -/
theorem Raises.forM {xs : List α} {f : α → Lower Unit} (hf : ∀ a, Raises n 0 (f a)) :
    Raises (xs.length * n) 0 (xs.forM f) := by
  induction xs with
  | nil => exact (raises_pure ()).cast (by simp) rfl
  | cons a xs ih =>
    refine ((hf a).bind fun _ => ih).cast ?_ rfl
    rw [List.length_cons, Int.natCast_succ, Int.add_mul, Int.one_mul, Int.add_comm]

theorem raises_pushValues (hp : List.Forall₂ (Raises 0) ks parts) :
    Raises parts.length ks.sum (pushValues parts) := by
  induction hp with
  | nil => exact raises_pure []
  | cons hfirst _ ih =>
    refine (hfirst.bind fun _ => (raises_push _).bind fun slot => ih.andThen fun slots =>
      raises_pure (slot :: slots)).cast ?_ ?_
    · rw [List.length_cons]
      omega
    · rw [Nat.zero_add, List.sum_cons]

theorem raises_loadVariable (x : String) : Raises 0 0 (loadVariable x) :=
  (raises_slot x).next fun _ => raises_emit rfl

theorem raises_assign (x : String) (hv : Raises 0 k body) : Raises 0 k (assign x body) :=
  (raises_slot x).next fun _ => hv.andThen fun _ => raises_emit rfl

theorem raises_binary (op : Operator) (e : Expr) (hl : Raises 0 k left) (hr : Raises 0 l right) :
    Raises 0 (k + l) (binary op (updateTarget op e) left right) := by
  refine (raises_updateTarget op e).next fun target => ?_
  refine Raises.cast (n := 0 + (1 + (0 + (1 + -2)))) (k := k + (0 + (l + (0 + 0)))) ?_ rfl
    (by simp only [Nat.zero_add, Nat.add_zero])
  refine hl.bind fun _ => (raises_push _).bind fun a => hr.bind fun _ => (raises_push _).bind fun b => ?_
  refine (raises_emit rfl).next fun _ => (raises_emit rfl).next fun _ => ?_
  cases target with
  | none => exact raises_drop 2
  | some slot => exact (raises_emit rfl).next fun _ => raises_drop 2

theorem raises_letIn (names : List String) (hv : List.Forall₂ (Raises 0) ks parts)
    (hb : Raises 0 k body) : Raises 0 (ks.sum + k) (letIn names parts body) := by
  have hscope : ∀ slots, Raises 0 k (do
      openScope names slots
      body
      popScope) := by
    intro slots s _ u h
    simp only [openScope, bind_assoc, bind_eq_ok] at h
    obtain ⟨_, _, h1, _, _, h2, _, t, h3, h4⟩ := h
    obtain ⟨-, rfl⟩ := pushScope_bindSlots h1 h2
    exact (hb _ _ _ h3).unbound h4
  rw [letIn_eq]
  refine ((raises_pushValues hv).bind fun slots => ?_).cast (Int.add_right_neg _) rfl
  have h := ((hscope slots).bind fun _ => raises_drop parts.length).cast (Int.zero_add _) (Nat.add_zero k)
  simpa only [bind_assoc] using h

theorem raises_concat (hp : List.Forall₂ (Raises 0) ks parts) :
    Raises 0 (ks.sum + 1) (concat parts) := by
  refine ((raises_pushValues hp).bind fun slots => ?_).cast (Int.add_right_neg _) rfl
  refine (raises_freshHeap.bind (l := 0) fun cell => ?_).cast (Int.zero_add _) rfl
  have hjoin : Raises 0 0 (slots.forM fun slot => emit (.binary .concat (.heap cell) (.stack slot))) :=
    (Raises.forM fun slot => raises_emit rfl).cast (Int.mul_zero _) rfl
  refine (raises_emit rfl).next fun _ => (raises_emit rfl).next fun _ => hjoin.next fun _ => ?_
  exact (raises_emit rfl).next fun _ => (raises_emit rfl).next fun _ => raises_drop _

/-- The jump that leaves the selection is pending, if there is one. -/
theorem adds_arm {mode : Mode} {result : Int} {leave : Nat} (hc : Raises 0 k condition)
    (hb : Raises 0 l body) (h : arm mode result condition body s = .ok leave t) :
    Adds s 0 (k + l) (if mode = .first then [leave] else []) t := by
  simp only [arm, bind_eq_ok] at h
  obtain ⟨_, _, h1, skip, s1, h2, _, s3, h3, _, s4, h4, _, _, h5, leave, s5, h6, h⟩ := h
  obtain ⟨rfl, rfl⟩ := here_eq_ok h2
  obtain ⟨rfl, rfl⟩ := here_eq_ok h6
  have g := (((hc _ _ _ h1).trans (adds_jump rfl h3)).trans (hb _ _ _ h4)).trans (raises_emit rfl _ _ _ h5)
  by_cases hm : mode = .first
  · simp only [hm, if_true, bind_eq_ok] at h ⊢
    obtain ⟨_, s6, h6, _, s7, h7, h8⟩ := h
    cases h8
    exact (g.trans (adds_jump rfl h6)).patch h7
  · simp only [hm, if_false, bind_eq_ok] at h ⊢
    obtain ⟨_, s7, h7, h8⟩ := h
    cases h8
    exact g.patch h7

/-- The jumps that leave the selection are pending. -/
theorem adds_arms {mode : Mode} {result : Int} {exits : List Nat}
    (hc : List.Forall₂ (Raises 0) ks conditions) (hb : List.Forall₂ (Raises 0) ls branches)
    (h : arms mode result conditions branches s = .ok exits t) :
    Adds s 0 (List.zipWith (· + ·) ks ls).sum exits t := by
  induction hc generalizing branches ls s t exits with
  | nil =>
    cases h
    exact .refl s
  | cons hcondition _ ih =>
    cases hb with
    | nil =>
      cases h
      exact .refl s
    | cons hbranch hb =>
      simp only [arms_cons, bind_eq_ok] at h
      obtain ⟨leave, s1, h1, rest, s2, h2, h3⟩ := h
      cases h3
      refine ((adds_arm hcondition hbranch h1).trans (ih hb h2)).cast rfl rfl ?_
      split <;> rfl

theorem Adds.patch_all (h : Adds s n k p t) (hp : p.forM patchHere t = .ok () u) :
    Adds s n k [] u := by
  induction p generalizing t with
  | nil =>
    cases hp
    exact h
  | cons address p ih =>
    obtain ⟨_, t', h1, h2⟩ := bind_eq_ok.1 hp
    exact ih (h.patch h1) h2

theorem raises_select (mode : Mode) (hc : List.Forall₂ (Raises 0) ks conditions)
    (hb : List.Forall₂ (Raises 0) ls branches) :
    Raises 0 (List.zipWith (· + ·) ks ls).sum (select mode conditions branches) := by
  intro s _ t h
  simp only [select, bind_eq_ok] at h
  obtain ⟨_, s1, h1, exits, s2, h2, _, s3, h3, _, s4, h4, h5⟩ := h
  have g := ((raises_push _ _ _ _ h1).trans (adds_arms hc hb h2)).patch_all h3
  exact ((g.trans (raises_emit rfl _ _ _ h4)).trans (raises_drop 1 _ _ _ h5)).cast rfl
    (Nat.zero_add _) rfl

theorem raises_loop (hc : Raises 0 k condition) (hb : Raises 0 l body) :
    Raises 0 (k + l) (loop condition body) := by
  intro s _ t h
  simp only [loop, bind_eq_ok] at h
  obtain ⟨_, s1, h1, top, _, h2, _, s2, h3, exit, _, h4, _, s3, h5, _, s4, h6, _, s5, h7, _, s6, h8,
    _, s7, h9, _, s8, h10, h11⟩ := h
  obtain ⟨rfl, rfl⟩ := here_eq_ok h2
  obtain ⟨rfl, rfl⟩ := here_eq_ok h4
  have g7 := (((hc _ _ _ h3).trans (adds_jump rfl h5)).trans (hb _ _ _ h6)).trans
    (raises_emit rfl _ _ _ h7)
  have g9 := ((raises_push _ _ _ _ h1).trans (g7.goto (Nat.le_refl _) g7.size h8)).patch h9
  exact ((g9.trans (raises_emit rfl _ _ _ h10)).trans (raises_drop 1 _ _ _ h11)).cast rfl
    (Nat.zero_add _) rfl

theorem length_of_pushValues {slots : List Int} (h : pushValues parts s = .ok slots t) :
    slots.length = parts.length := by
  induction parts generalizing s t slots with
  | nil =>
    cases h
    rfl
  | cons part parts ih =>
    simp only [pushValues, bind_eq_ok] at h
    obtain ⟨_, _, _, slot, _, _, rest, _, hrest, h⟩ := h
    cases h
    rw [List.length_cons, List.length_cons, ih hrest]

theorem raises_callWith (name : String) (ha : List.Forall₂ (Raises 0) ks parts) :
    Raises 0 ks.sum (callWith name parts) := by
  refine (raises_checkArity name _).next fun _ => ?_
  intro s _ t h
  simp only [bind_eq_ok] at h
  obtain ⟨slots, s1, h1, _, s2, h2, _, s3, h3, h4⟩ := h
  have hwindow : Raises (slots.length * 1) 0 (slots.forM fun slot => do let _ ← push (.stack slot)) :=
    .forM fun slot => (raises_push _).andThen fun _ => raises_pure ()
  have g := ((raises_pushValues ha _ _ _ h1).trans (hwindow _ _ _ h2)).trans
    ((raises_call name _ _ _ h3).trans (raises_drop _ _ _ _ h4))
  refine g.cast ?_ rfl rfl
  rw [length_of_pushValues h1]
  omega

end Forms

mutual

theorem raises_expr : ∀ e : Expr, Raises 0 e.concats e.lower
  | .literal _ => raises_emit rfl
  | .variable x => raises_loadVariable x
  | .assign x value => raises_assign x (raises_expr value)
  | .letIn names values body => raises_letIn names (raises_all values) (raises_expr body)
  | .loop condition body => raises_loop (raises_expr condition) (raises_expr body)
  | .select mode conditions branches =>
    raises_select mode (raises_all conditions) (raises_all branches)
  | .call name arguments => raises_callWith name (raises_all arguments)
  | .not operand => (raises_expr operand).andThen fun _ => raises_emit rfl
  | .concat parts => raises_concat (raises_all parts)
  | .binary op left right => raises_binary op left (raises_expr left) (raises_expr right)

theorem raises_all : ∀ es : List Expr, List.Forall₂ (Raises 0) (Expr.concatsOf es) (Expr.lowerAll es)
  | [] => .nil
  | e :: es => .cons (raises_expr e) (raises_all es)

end

end Lowering
end Sigil
