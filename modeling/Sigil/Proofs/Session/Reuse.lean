import Sigil.Proofs.Draft.Calls
import Sigil.Proofs.Draft.Program
import Sigil.Proofs.Draft.Relocation
import Sigil.Proofs.Relating

/-!
Lowering does alike in states that mirror each other: fails for the same reason, or emits the same code
up to the heap cells. The ids given out before do not matter, nor do functions that are not called.
-/
namespace Sigil

namespace Symbols

/-- Which names bind twice in a scope depends on the names alone. -/
theorem relates_bindNames {a b : List (String × Nat)} (names : List String)
    (hab : a.map Prod.fst = b.map Prod.fst) :
    Relates Eq (fun _ _ => True) (fun _ _ => True) (fun _ _ => True)
      (bindNames a names) (bindNames b names) := by
  induction names generalizing a b with
  | nil => exact .pure trivial
  | cons name names ih =>
    intro y z _
    have hname : (a.lookup name).isSome ↔ (b.lookup name).isSome := by
      rw [lookup_isSome, lookup_isSome, hab]
    by_cases ha : (a.lookup name).isSome
    · simp only [bindNames, ha, hname.1 ha, if_true]
      exact .error rfl
    · rw [bindNames_cons names y ha, bindNames_cons names z (mt hname.2 ha)]
      exact ih (by simp [hab]) _ _ trivial

theorem relates_pushScope (names : List String) :
    Relates Eq (fun _ _ => True) (fun _ _ => True) (fun _ _ => True)
      (pushScope names) (pushScope names) := by
  refine (relates_bindNames names rfl).bind fun _ _ _ => ?_
  exact fun _ _ _ => .ok trivial trivial

end Symbols

namespace Lowering

open Operand (accumulator)

variable {N : String → Prop} {d : Nat} {α β : Type}

theorem Keyed.congr {s t : Lowering} (hs : s.Keyed) (hslots : t.slots = s.slots)
    (hsymbols : t.symbols = s.symbols) : t.Keyed where
  slots := by
    rw [hslots, hsymbols]
    exact hs.slots
  scopes := by
    rw [hsymbols]
    exact hs.scopes

/-- In `t` lowering goes on as in `s`, with heap cells further on, if only functions of `N` occur. -/
structure Mirrors (N : String → Prop) (d : Nat) (s t : Lowering) : Prop where
  code : t.code = s.code.rename (· + d)
  sites : t.linker.sites = s.linker.sites
  named : ∀ site ∈ s.linker.sites, N site.2
  address : ∀ name, N name → t.linker.address? name = s.linker.address? name
  arity : ∀ name, N name → t.symbols.arity? name = s.symbols.arity? name
  frames : t.frames = s.frames
  offset : t.offset = s.offset
  nextHeap : t.nextHeap = s.nextHeap + d
  keyed : s.Keyed ∧ t.Keyed

abbrev Mirrored (N : String → Prop) (d : Nat) (V : α → β → Prop) (x : Lower α) (y : Lower β) : Prop :=
  Relates Eq (Mirrors N d) (Mirrors N d) V x y

theorem mirrored_emit {i j : Instruction} (hi : i.relocate id (· + d) = j) :
    Mirrored N d Done (emit i) (emit j) := by
  intro s t h
  subst hi
  exact .ok trivial { h with
    code := by
      show t.code.emit _ = (s.code.emit i).rename _
      rw [h.code, Code.rename_emit]
    keyed := ⟨h.keyed.1.congr rfl rfl, h.keyed.2.congr rfl rfl⟩ }

theorem mirrored_here : Mirrored N d Eq here here := by
  intro s t h
  refine .ok ?_ h
  show s.code.size = t.code.size
  rw [h.code, Code.size_rename]

theorem mirrored_patchHere (address : Nat) :
    Mirrored N d Done (patchHere address) (patchHere address) := by
  intro s t h
  refine .ok trivial { h with
    code := ?_
    keyed := ⟨h.keyed.1.congr rfl rfl, h.keyed.2.congr rfl rfl⟩ }
  show (t.code.patch? address t.code.size).getD t.code =
    ((s.code.patch? address s.code.size).getD s.code).rename _
  rw [h.code, Code.size_rename, Code.patch?_rename]
  cases s.code.patch? address s.code.size <;> rfl

theorem mirrored_raise (n : Int) : Mirrored N d Done
    (modify fun s : Lowering => { s with offset := s.offset + n })
    (modify fun s : Lowering => { s with offset := s.offset + n }) := fun _ _ h =>
  .ok trivial { h with
    offset := congrArg (· + n) h.offset
    keyed := ⟨h.keyed.1.congr rfl rfl, h.keyed.2.congr rfl rfl⟩ }

theorem mirrored_push {source : Operand} (hs : source.relocate (· + d) = source) :
    Mirrored N d Eq (push source) (push source) := by
  have hoffset : Mirrored N d (fun s t => s.offset = t.offset) get get :=
    fun _ _ h => .ok h.offset.symm h
  refine hoffset.bind fun _ _ h => ?_
  refine (mirrored_emit (by rw [Instruction.relocate, hs])).bind fun _ _ _ => ?_
  exact (mirrored_raise 1).bind fun _ _ _ => .pure h

theorem mirrored_drop (n : Nat) : Mirrored N d Done (drop n) (drop n) := by
  unfold drop
  split
  · exact (mirrored_emit rfl).bind fun _ _ _ => mirrored_raise (-n)
  · exact .pure trivial

theorem mirrored_slot (x : String) : Mirrored N d Eq (slot x) (slot x) := by
  have hslot : Mirrored N d (fun s t => s.slot? x = t.slot? x) get get :=
    fun s t h => .ok (by rw [slot?_eq_frames, slot?_eq_frames, h.frames]) h
  refine hslot.bind fun s t h => ?_
  rw [h]
  cases t.slot? x with
  | none => exact .throw rfl
  | some k => exact .pure rfl

def openScope (names : List String) (slots : List Int) : Lower Unit := do
  let ids ← pushScope names
  bindSlots (ids.zip slots)

theorem relates_openScope (names : List String) (slots : List Int) :
    Relates Eq (fun _ _ => True) (fun _ _ => True) Done (openScope names slots)
      (openScope names slots) := by
  have hpush : Relates Eq (fun _ _ => True) (fun _ _ => True) (fun _ _ => True)
      (pushScope names) (pushScope names) := by
    intro s t _
    unfold pushScope onSymbols
    have h := Symbols.relates_pushScope names s.symbols t.symbols trivial
    revert h
    generalize Symbols.pushScope names s.symbols = r
    generalize Symbols.pushScope names t.symbols = r'
    rintro (⟨-, -⟩ | ⟨he⟩)
    · exact .ok trivial trivial
    · exact .error he
  exact hpush.bind fun _ _ _ _ _ _ => .ok trivial trivial

theorem mirrored_openScope (names : List String) (slots : List Int) :
    Mirrored N d Done (openScope names slots) (openScope names slots) := by
  intro s t h
  have hresults := relates_openScope names slots s t trivial
  cases hs : openScope names slots s with
  | error e s' =>
    rw [hs] at hresults
    cases ht : openScope names slots t with
    | ok _ t' =>
      rw [ht] at hresults
      cases hresults
    | error f t' =>
      rw [ht] at hresults
      cases hresults with
      | error he => exact .error he
  | ok _ s' =>
    rw [hs] at hresults
    cases ht : openScope names slots t with
    | error f t' =>
      rw [ht] at hresults
      cases hresults
    | ok _ t' =>
      obtain ⟨_, _, hs1, hs2⟩ := bind_eq_ok.1 hs
      obtain ⟨_, _, ht1, ht2⟩ := bind_eq_ok.1 ht
      obtain ⟨hn, rfl⟩ := pushScope_bindSlots hs1 hs2
      obtain ⟨-, rfl⟩ := pushScope_bindSlots ht1 ht2
      exact .ok trivial { h with
        frames := by rw [bound_frames h.keyed.2 hn, bound_frames h.keyed.1 hn, h.frames]
        keyed := ⟨h.keyed.1.bound names slots, h.keyed.2.bound names slots⟩ }

theorem Keyed.popScope {s : Lowering} (hs : s.Keyed) :
    Keyed { s with symbols := s.symbols.popScope } where
  slots := hs.slots
  scopes := fun scope hscope => hs.scopes scope (List.mem_of_mem_tail hscope)

theorem mirrored_popScope : Mirrored N d Done popScope popScope := by
  intro s t h
  refine .ok trivial { h with
    frames := ?_
    keyed := ⟨h.keyed.1.popScope, h.keyed.2.popScope⟩ }
  have hpop : ∀ u : Lowering, frames { u with symbols := u.symbols.popScope } = u.frames.tail :=
    fun _ => List.map_tail
  rw [hpop, hpop, h.frames]

theorem mirrored_freshHeap : Mirrored N d (fun a b => b = a + d) freshHeap freshHeap := by
  intro s t h
  refine .ok h.nextHeap { h with
    nextHeap := ?_
    keyed := ⟨h.keyed.1.congr rfl rfl, h.keyed.2.congr rfl rfl⟩ }
  show t.nextHeap + 1 = s.nextHeap + 1 + d
  rw [h.nextHeap, Nat.add_right_comm]

theorem mirrored_call {name : String} (hname : N name) : Mirrored N d Done (call name) (call name) := by
  intro s t h
  exact .ok trivial { h with
    code := by
      show t.code.emit _ = (s.code.emit _).rename _
      rw [h.code, Code.rename_emit]
      rfl
    sites := by
      show t.linker.sites ++ [(t.code.size, name)] = s.linker.sites ++ [(s.code.size, name)]
      rw [h.sites, h.code, Code.size_rename]
    named := by
      intro site hsite
      rcases List.mem_append.1 hsite with hsite | hsite
      · exact h.named site hsite
      · rw [List.mem_singleton.1 hsite]
        exact hname
    keyed := ⟨h.keyed.1.congr rfl rfl, h.keyed.2.congr rfl rfl⟩ }

theorem mirrored_checkArity {name : String} (hname : N name) (found : Nat) :
    Mirrored N d Done (checkArity name found) (checkArity name found) := by
  have harity : Mirrored N d
      (fun s t : Lowering => s.symbols.arity? name = t.symbols.arity? name) get get :=
    fun s t h => .ok (h.arity name hname).symm h
  refine harity.bind fun s t h => ?_
  rw [h]
  cases t.symbols.arity? name with
  | none => exact .throw rfl
  | some expected =>
    show Mirrored N d Done (if expected ≠ found then _ else _) (if expected ≠ found then _ else _)
    split
    · exact .throw rfl
    · exact .pure trivial

section Forms

variable {part condition body value left right : Lower Unit}
  {parts conditions branches : List (Lower Unit)}

theorem mirrored_pushValues (hp : ∀ part ∈ parts, Mirrored N d Done part part) :
    Mirrored N d Eq (pushValues parts) (pushValues parts) := by
  induction parts with
  | nil => exact .pure rfl
  | cons part parts ih =>
    rw [List.forall_mem_cons] at hp
    refine hp.1.bind fun _ _ _ => (mirrored_push rfl).bind fun slot _ h => ?_
    subst h
    refine (ih hp.2).bind fun slots _ h => ?_
    subst h
    exact .pure rfl

theorem mirrored_assign (x : String) (hv : Mirrored N d Done value value) :
    Mirrored N d Done (assign x value) (assign x value) := by
  refine (mirrored_slot x).bind fun slot _ h => ?_
  subst h
  exact hv.bind fun _ _ _ => mirrored_emit rfl

theorem mirrored_loadVariable (x : String) :
    Mirrored N d Done (loadVariable x) (loadVariable x) := by
  refine (mirrored_slot x).bind fun slot _ h => ?_
  subst h
  exact mirrored_emit rfl

theorem mirrored_not (ho : Mirrored N d Done part part) :
    Mirrored N d Done (Lowering.not part) (Lowering.not part) :=
  ho.bind fun _ _ _ => mirrored_emit rfl

theorem mirrored_updateTarget (op : Operator) (e : Expr) :
    Mirrored N d Eq (updateTarget op e) (updateTarget op e) := by
  unfold updateTarget
  split
  · cases e with
    | «variable» x =>
      refine (mirrored_slot x).bind (f := fun k => pure (some k)) fun slot _ h => ?_
      subst h
      exact .pure rfl
    | _ => exact .throw rfl
  · exact .pure rfl

theorem mirrored_binary (op : Operator) (e : Expr) (hl : Mirrored N d Done left left)
    (hr : Mirrored N d Done right right) :
    Mirrored N d Done (binary op (updateTarget op e) left right)
      (binary op (updateTarget op e) left right) := by
  refine (mirrored_updateTarget op e).bind fun target _ h => ?_
  subst h
  refine hl.bind fun _ _ _ => (mirrored_push rfl).bind fun a _ h => ?_
  subst h
  refine hr.bind fun _ _ _ => (mirrored_push rfl).bind fun b _ h => ?_
  subst h
  refine (mirrored_emit rfl).bind fun _ _ _ => (mirrored_emit rfl).bind fun _ _ _ => ?_
  cases target with
  | none => exact mirrored_drop 2
  | some slot => exact (mirrored_emit rfl).bind fun _ _ _ => mirrored_drop 2

theorem letIn_eq (names : List String) (values : List (Lower Unit)) (body : Lower Unit) :
    letIn names values body = (do
      let slots ← pushValues values
      openScope names slots
      body
      popScope
      drop values.length) := by
  simp [letIn, openScope]

theorem mirrored_letIn (names : List String) (hv : ∀ part ∈ parts, Mirrored N d Done part part)
    (hb : Mirrored N d Done body body) :
    Mirrored N d Done (letIn names parts body) (letIn names parts body) := by
  rw [letIn_eq]
  refine (mirrored_pushValues hv).bind fun slots _ h => ?_
  subst h
  exact (mirrored_openScope names slots).bind fun _ _ _ => hb.bind fun _ _ _ =>
    mirrored_popScope.bind fun _ _ _ => mirrored_drop _

theorem mirrored_concat (hp : ∀ part ∈ parts, Mirrored N d Done part part) :
    Mirrored N d Done (concat parts) (concat parts) := by
  refine (mirrored_pushValues hp).bind fun slots _ h => ?_
  subst h
  refine mirrored_freshHeap.bind fun cell _ h => ?_
  subst h
  refine (mirrored_emit rfl).bind fun _ _ _ => (mirrored_emit rfl).bind fun _ _ _ => ?_
  refine (Relates.forM fun slot _ => mirrored_emit rfl).bind fun _ _ _ => ?_
  exact (mirrored_emit rfl).bind fun _ _ _ => (mirrored_emit rfl).bind fun _ _ _ => mirrored_drop _

theorem mirrored_arm (mode : Mode) (result : Int) (hc : Mirrored N d Done condition condition)
    (hb : Mirrored N d Done body body) :
    Mirrored N d Eq (arm mode result condition body) (arm mode result condition body) := by
  refine hc.bind fun _ _ _ => mirrored_here.bind fun skip _ h => ?_
  subst h
  refine (mirrored_emit rfl).bind fun _ _ _ => hb.bind fun _ _ _ => ?_
  refine (mirrored_emit rfl).bind fun _ _ _ => mirrored_here.bind fun leave _ h => ?_
  subst h
  have hskip : Mirrored N d Eq (do patchHere skip; return leave) (do patchHere skip; return leave) :=
    (mirrored_patchHere skip).bind fun _ _ _ => .pure rfl
  by_cases hm : mode = .first
  · simp only [hm, if_true]
    exact (mirrored_emit rfl).bind fun _ _ _ => hskip
  · simpa only [hm, if_false] using hskip

theorem mirrored_arms (mode : Mode) (result : Int)
    (h : ∀ arm ∈ conditions.zip branches,
      Mirrored N d Done arm.1 arm.1 ∧ Mirrored N d Done arm.2 arm.2) :
    Mirrored N d Eq (arms mode result conditions branches) (arms mode result conditions branches) := by
  induction conditions generalizing branches with
  | nil => exact .pure rfl
  | cons condition conditions ih =>
    cases branches with
    | nil => exact .pure rfl
    | cons branch branches =>
      rw [List.zip_cons_cons, List.forall_mem_cons] at h
      rw [arms_cons]
      refine (mirrored_arm mode result h.1.1 h.1.2).bind fun leave _ hleave => ?_
      subst hleave
      refine (ih h.2).bind fun exits _ hexits => ?_
      subst hexits
      exact .pure rfl

theorem mirrored_select (mode : Mode)
    (h : ∀ arm ∈ conditions.zip branches,
      Mirrored N d Done arm.1 arm.1 ∧ Mirrored N d Done arm.2 arm.2) :
    Mirrored N d Done (select mode conditions branches) (select mode conditions branches) := by
  refine (mirrored_push rfl).bind fun result _ hresult => ?_
  subst hresult
  refine (mirrored_arms mode result h).bind fun exits _ hexits => ?_
  subst hexits
  refine (Relates.forM fun exit _ => mirrored_patchHere exit).bind fun _ _ _ => ?_
  exact (mirrored_emit rfl).bind fun _ _ _ => mirrored_drop 1

theorem mirrored_loop (hc : Mirrored N d Done condition condition)
    (hb : Mirrored N d Done body body) :
    Mirrored N d Done (loop condition body) (loop condition body) := by
  refine (mirrored_push rfl).bind fun result _ h => ?_
  subst h
  refine mirrored_here.bind fun top _ h => ?_
  subst h
  refine hc.bind fun _ _ _ => mirrored_here.bind fun exit _ h => ?_
  subst h
  refine (mirrored_emit rfl).bind fun _ _ _ => hb.bind fun _ _ _ => ?_
  refine (mirrored_emit rfl).bind fun _ _ _ => (mirrored_emit rfl).bind fun _ _ _ => ?_
  exact (mirrored_patchHere exit).bind fun _ _ _ => (mirrored_emit rfl).bind fun _ _ _ =>
    mirrored_drop 1

theorem mirrored_callWith {name : String} (hname : N name)
    (ha : ∀ part ∈ parts, Mirrored N d Done part part) :
    Mirrored N d Done (callWith name parts) (callWith name parts) := by
  refine (mirrored_checkArity hname _).bind fun _ _ _ => ?_
  refine (mirrored_pushValues ha).bind fun slots _ h => ?_
  subst h
  have hwindow : ∀ slot ∈ slots, Mirrored N d Done (do let _ ← push (.stack slot))
      (do let _ ← push (.stack slot)) :=
    fun slot _ => (mirrored_push rfl).bind fun _ _ _ => .pure trivial
  refine (Relates.forM hwindow).bind fun _ _ _ => ?_
  exact (mirrored_call hname).bind fun _ _ _ => mirrored_drop _

end Forms

theorem mirrored_branches {conditions branches : List Expr}
    (hN : ∀ name ∈ (Expr.select .all conditions branches).callees, N name)
    (hc : ∀ e ∈ conditions, (∀ name ∈ e.callees, N name) → Mirrored N d Done e.lower e.lower)
    (hb : ∀ e ∈ branches, (∀ name ∈ e.callees, N name) → Mirrored N d Done e.lower e.lower) :
    ∀ arm ∈ (Expr.lowerAll conditions).zip (Expr.lowerAll branches),
      Mirrored N d Done arm.1 arm.1 ∧ Mirrored N d Done arm.2 arm.2 := by
  induction conditions generalizing branches with
  | nil => exact nofun
  | cons condition conditions ih =>
    cases branches with
    | nil => exact nofun
    | cons branch branches =>
      rw [List.forall_mem_cons] at hc hb
      simp only [Expr.callees, Expr.calleesOf, List.zipWith_cons_cons, List.flatten_cons,
        List.mem_append, or_imp, forall_and] at hN
      rw [Expr.lowerAll, Expr.lowerAll, List.zip_cons_cons, List.forall_mem_cons]
      exact ⟨⟨hc.1 hN.1.1, hb.1 hN.1.2⟩, ih hN.2 hc.2 hb.2⟩

mutual

theorem mirrored_expr : ∀ e : Expr, (∀ name ∈ e.callees, N name) → Mirrored N d Done e.lower e.lower
  | .literal _, _ => mirrored_emit rfl
  | .variable x, _ => mirrored_loadVariable x
  | .assign x value, hN => mirrored_assign x (mirrored_expr value hN)
  | .letIn names values body, hN =>
    mirrored_letIn names
      (mirrored_values values fun name h => hN name (List.mem_append_left _ h))
      (mirrored_expr body fun name h => hN name (List.mem_append_right _ h))
  | .loop condition body, hN =>
    mirrored_loop (mirrored_expr condition fun name h => hN name (List.mem_append_left _ h))
      (mirrored_expr body fun name h => hN name (List.mem_append_right _ h))
  | .select mode conditions branches, hN =>
    mirrored_select mode (mirrored_branches hN (mirrored_all conditions) (mirrored_all branches))
  | .call name arguments, hN =>
    mirrored_callWith (hN name (List.mem_append_right _ List.mem_cons_self))
      (mirrored_values arguments fun name h => hN name (List.mem_append_left _ h))
  | .not operand, hN => mirrored_not (mirrored_expr operand hN)
  | .concat parts, hN => mirrored_concat (mirrored_values parts hN)
  | .binary op left right, hN =>
    mirrored_binary op left (mirrored_expr left fun name h => hN name (List.mem_append_left _ h))
      (mirrored_expr right fun name h => hN name (List.mem_append_right _ h))

theorem mirrored_all : ∀ es : List Expr, ∀ e ∈ es, (∀ name ∈ e.callees, N name) →
    Mirrored N d Done e.lower e.lower
  | [] => nofun
  | e :: es => List.forall_mem_cons.2 ⟨mirrored_expr e, mirrored_all es⟩

theorem mirrored_values : ∀ es : List Expr, (∀ name ∈ (Expr.calleesOf es).flatten, N name) →
    ∀ part ∈ Expr.lowerAll es, Mirrored N d Done part part
  | [], _ => nofun
  | e :: es, hN => List.forall_mem_cons.2
    ⟨mirrored_expr e fun name h => hN name (List.mem_append_left _ h),
      mirrored_values es fun name h => hN name (List.mem_append_right _ h)⟩

end

theorem mirrored_register {f : Function} (hname : N f.name) :
    Mirrored N d Done f.register f.register := by
  intro s t h
  rw [Function.register_eq, Function.register_eq, h.arity f.name hname]
  split
  · exact .error rfl
  · exact .ok trivial { h with
      arity := fun name hN => by
        simp only [Symbols.arity?, List.lookup_cons]
        split
        · rfl
        · exact h.arity name hN
      keyed :=
        ⟨⟨fun e he => Nat.le_succ_of_le (h.keyed.1.slots e he),
          fun scope hs e he => Nat.le_succ_of_le (h.keyed.1.scopes scope hs e he)⟩,
        ⟨fun e he => Nat.le_succ_of_le (h.keyed.2.slots e he),
          fun scope hs e he => Nat.le_succ_of_le (h.keyed.2.scopes scope hs e he)⟩⟩ }

theorem mirrored_startBlock (name : String) :
    Mirrored N d Done (startBlock name) (startBlock name) := by
  intro s t h
  have hsize : t.code.size = s.code.size := by rw [h.code, Code.size_rename]
  exact .ok trivial { h with
    code := by
      show t.code.label t.code.size name = (s.code.label s.code.size name).rename _
      rw [hsize, h.code, Code.rename_label]
    address := fun callee hN => by
      show List.lookup callee ((name, t.code.size) :: t.linker.addresses) =
        List.lookup callee ((name, s.code.size) :: s.linker.addresses)
      rw [hsize, List.lookup_cons, List.lookup_cons]
      split
      · rfl
      · exact h.address callee hN
    keyed := ⟨h.keyed.1.congr rfl rfl, h.keyed.2.congr rfl rfl⟩ }

theorem function_eq (f : Function) : f.lower = (do
    startBlock f.name
    modify fun s => { s with offset := 0 }
    openScope f.parameters (parameterSlots f.parameters.length)
    f.body.lower
    popScope
    emit (.result accumulator)) := by
  simp [Function.lower, openScope]

theorem mirrored_function {f : Function} (hN : ∀ name ∈ f.body.callees, N name) :
    Mirrored N d Done f.lower f.lower := by
  rw [function_eq]
  have hground : Mirrored N d Done (modify fun s : Lowering => { s with offset := 0 })
      (modify fun s : Lowering => { s with offset := 0 }) := fun _ _ h =>
    .ok trivial { h with
      offset := rfl
      keyed := ⟨h.keyed.1.congr rfl rfl, h.keyed.2.congr rfl rfl⟩ }
  refine (mirrored_startBlock f.name).bind fun _ _ _ => hground.bind fun _ _ _ => ?_
  refine (mirrored_openScope _ _).bind fun _ _ _ => (mirrored_expr f.body hN).bind fun _ _ _ => ?_
  exact mirrored_popScope.bind fun _ _ _ => mirrored_emit rfl

def Renamed (cell : Nat → Nat) (c c' : Code) : Prop := c' = c.rename cell

theorem relates_linkSites {l l' : Linker} {cell : Nat → Nat} {sites : List (Nat × String)}
    (h : ∀ site ∈ sites, l'.address? site.2 = l.address? site.2) :
    Relates Eq (Renamed cell) (Renamed cell) Done (l.linkSites sites) (l'.linkSites sites) := by
  induction sites with
  | nil => exact .pure trivial
  | cons site sites ih =>
    obtain ⟨site, name⟩ := site
    rw [List.forall_mem_cons] at h
    rw [Linker.linkSites, Linker.linkSites, h.1]
    cases l.address? name with
    | none => exact .throw rfl
    | some target =>
      have hget : Relates Eq (Renamed cell) (Renamed cell) (Renamed cell)
          (get : EStateM LinkError Code Code) get :=
        fun _ _ hc => .ok hc hc
      refine hget.bind fun c c' hc => ?_
      rw [hc]
      rw [Code.patch?_rename]
      cases c.patch? site target with
      | none => exact .throw rfl
      | some patched =>
        have hset : Relates Eq (Renamed cell) (Renamed cell) (fun _ _ => True)
            (set patched : EStateM LinkError Code PUnit) (set (patched.rename cell)) :=
          fun _ _ _ => .ok trivial rfl
        exact hset.bind fun _ _ _ => ih h.2

theorem mirrored_link : Mirrored N d Done link link := by
  intro s t h
  have hsites : ∀ site ∈ s.linker.sites, t.linker.address? site.2 = s.linker.address? site.2 :=
    fun site hsite => h.address _ (h.named site hsite)
  have hlinked := relates_linkSites hsites s.code t.code h.code
  unfold link Linker.link
  simp only [h.sites]
  revert hlinked
  generalize s.linker.linkSites s.linker.sites s.code = r
  generalize t.linker.linkSites s.linker.sites t.code = r'
  rintro (⟨-, hcode⟩ | ⟨he⟩)
  · exact .ok trivial { h with
      code := hcode
      sites := rfl
      named := nofun
      keyed := ⟨h.keyed.1.congr rfl rfl, h.keyed.2.congr rfl rfl⟩ }
  · exact .error (congrArg SemanticError.link he)

theorem mirrored_takeCode :
    Mirrored N d (Renamed (· + d)) takeCode takeCode := fun _ _ h =>
  .ok h.code { h with
    code := Code.rename_empty.symm
    keyed := ⟨h.keyed.1.congr rfl rfl, h.keyed.2.congr rfl rfl⟩ }

/-- In states that mirror each other, a program fails alike, or has the same code with other cells. -/
theorem mirrored_program {p : Program} (hnames : ∀ name ∈ p.functions.map Function.name, N name)
    (hcallees : ∀ name ∈ p.callees, N name) :
    Mirrored N d (Renamed (· + d)) p.lower p.lower := by
  have hbody : ∀ name ∈ p.body.callees, N name :=
    fun name h => hcallees name (List.mem_append_left _ h)
  have hfunctions : ∀ f ∈ p.functions, ∀ name ∈ f.body.callees, N name := fun f hf name h =>
    hcallees name (List.mem_append_right _ (List.mem_flatMap.2 ⟨f, hf, h⟩))
  refine (Relates.forM fun f hf => mirrored_register (hnames _ (List.mem_map_of_mem hf))).bind
    fun _ _ _ => ?_
  refine (mirrored_expr p.body hbody).bind fun _ _ _ => (mirrored_emit rfl).bind fun _ _ _ => ?_
  refine (Relates.forM fun f hf => mirrored_function (hfunctions f hf)).bind fun _ _ _ => ?_
  exact mirrored_link.bind fun _ _ _ => mirrored_takeCode

end Lowering
end Sigil
