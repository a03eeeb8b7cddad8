import Sigil.Proofs.Session.Reuse

/-!
What lowering leaves behind, whether it succeeds or fails. As long as nothing is emitted, nothing else
is done either, but for scopes that are opened and ids that are given out.
-/
namespace Sigil

def leftBy {ε σ α : Type} : EStateM.Result ε σ α → σ
  | .ok _ s => s
  | .error _ s => s

theorem get_eq {ε σ : Type} (s : σ) : (get : EStateM ε σ σ) s = .ok s s := rfl

namespace Lowering

open Operand (accumulator)

variable {α β : Type} {R : Lowering → Lowering → Prop} {s t u : Lowering}

def Steady (R : Lowering → Lowering → Prop) (x : Lower α) : Prop := ∀ s, R s (leftBy (x s))

theorem Steady.bind [IsTrans Lowering R] {x : Lower α} {f : α → Lower β} (hx : Steady R x)
    (hf : ∀ a, Steady R (f a)) : Steady R (x >>= f) := by
  intro s
  have h := hx s
  cases hs : x s with
  | ok a t =>
    rw [hs] at h
    rw [bind_of_ok hs]
    exact IsTrans.trans _ _ _ h (hf a t)
  | error e t =>
    rw [hs] at h
    rw [bind_of_error hs]
    exact h

theorem Steady.forM [IsTrans Lowering R] {xs : List α} {f : α → Lower Unit} (hR : ∀ s, R s s)
    (hf : ∀ a ∈ xs, Steady R (f a)) : Steady R (xs.forM f) := by
  induction xs with
  | nil => exact hR
  | cons a xs ih =>
    rw [List.forall_mem_cons] at hf
    exact hf.1.bind fun _ => ih hf.2

structure Quiet (s t : Lowering) : Prop where
  keyed : s.Keyed → t.Keyed
  functions : t.symbols.functions = s.symbols.functions
  nextHeap : s.nextHeap ≤ t.nextHeap
  silent : t.code.size = 0 → t.code = s.code ∧ t.linker = s.linker ∧ t.offset = s.offset

theorem Quiet.refl (s : Lowering) : Quiet s s := ⟨id, rfl, Nat.le_refl _, fun _ => ⟨rfl, rfl, rfl⟩⟩

instance : IsTrans Lowering Quiet where
  trans s t u h g :=
    { keyed := fun hs => g.keyed (h.keyed hs)
      functions := g.functions.trans h.functions
      nextHeap := Nat.le_trans h.nextHeap g.nextHeap
      silent := fun hu => by
        obtain ⟨hcode, hlinker, hoffset⟩ := g.silent hu
        obtain ⟨hcode', hlinker', hoffset'⟩ := h.silent (hcode ▸ hu)
        exact ⟨hcode.trans hcode', hlinker.trans hlinker', hoffset.trans hoffset'⟩ }

/-- With an instruction emitted, nothing is asked of code, linker and offset. -/
theorem Quiet.of_emitted (hsymbols : t.symbols = s.symbols) (hslots : t.slots = s.slots)
    (hheap : t.nextHeap = s.nextHeap) (hcode : 0 < t.code.size) : Quiet s t where
  keyed := fun hs => hs.congr hslots hsymbols
  functions := by rw [hsymbols]
  nextHeap := Nat.le_of_eq hheap.symm
  silent := fun h => absurd h (Nat.ne_of_gt hcode)

theorem size_emit_pos (code : Code) (i : Instruction) : 0 < (code.emit i).size := by
  rw [Code.size_emit]
  exact Nat.succ_pos _

theorem quiet_pure (a : α) : Steady Quiet (pure a) := Quiet.refl

theorem quiet_emit (i : Instruction) : Steady Quiet (emit i) :=
  fun _ => .of_emitted rfl rfl rfl (size_emit_pos _ i)

theorem quiet_push (source : Operand) : Steady Quiet (push source) :=
  fun _ => .of_emitted rfl rfl rfl (size_emit_pos _ _)

theorem quiet_drop (n : Nat) : Steady Quiet (drop n) := by
  intro s
  by_cases hn : n = 0
  · rw [drop, if_neg (not_not_intro hn)]
    exact .refl s
  · rw [drop, if_pos hn]
    exact .of_emitted rfl rfl rfl (size_emit_pos _ _)

theorem quiet_call (name : String) : Steady Quiet (call name) :=
  fun _ => .of_emitted rfl rfl rfl (size_emit_pos _ _)

theorem quiet_here : Steady Quiet here := Quiet.refl

theorem quiet_patchHere (address : Nat) : Steady Quiet (patchHere address) := by
  intro s
  show Quiet s { s with code := (s.code.patch? address s.code.size).getD s.code }
  cases hp : s.code.patch? address s.code.size with
  | none => exact .refl s
  | some patched =>
    obtain ⟨i, -, hget, -⟩ := Code.patch?_eq_some.1 hp
    have hlt : address < s.code.size := Code.lt_size hget
    refine .of_emitted rfl rfl rfl ?_
    show 0 < patched.size
    rw [Code.size_of_patch? hp]
    exact Nat.zero_lt_of_lt hlt

theorem quiet_slot (x : String) : Steady Quiet (slot x) := by
  intro s
  have hslot : leftBy (slot x s) = s := by
    rw [slot, bind_of_ok (get_eq s)]
    cases s.slot? x <;> rfl
  rw [hslot]
  exact .refl s

theorem quiet_checkArity (name : String) (found : Nat) : Steady Quiet (checkArity name found) := by
  intro s
  have hcheck : leftBy (checkArity name found s) = s := by
    rw [checkArity, bind_of_ok (get_eq s)]
    cases s.symbols.arity? name with
    | none => rfl
    | some expected =>
      dsimp only
      split <;> rfl
  rw [hcheck]
  exact .refl s

theorem quiet_freshHeap : Steady Quiet freshHeap := fun _ =>
  { keyed := fun hs => hs.congr rfl rfl
    functions := rfl
    nextHeap := Nat.le_succ _
    silent := fun _ => ⟨rfl, rfl, rfl⟩ }

theorem quiet_popScope : Steady Quiet popScope := fun _ =>
  { keyed := Keyed.popScope
    functions := rfl
    nextHeap := Nat.le_refl _
    silent := fun _ => ⟨rfl, rfl, rfl⟩ }

/-- Binding names gives out ids, and nothing more, even if it fails. -/
theorem bindNames_left (scope : List (String × Nat)) (names : List String) (y : Symbols) :
    ∃ lastId, y.lastId ≤ lastId ∧ leftBy (Symbols.bindNames scope names y) = { y with lastId } := by
  induction names generalizing scope y with
  | nil => exact ⟨_, Nat.le_refl _, rfl⟩
  | cons name names ih =>
    by_cases hname : (scope.lookup name).isSome
    · simp only [Symbols.bindNames, hname, if_true]
      exact ⟨_, Nat.le_refl _, rfl⟩
    · rw [Symbols.bindNames_cons names y hname]
      obtain ⟨lastId, hle, hleft⟩ := ih ((name, y.lastId + 1) :: scope) { y with lastId := y.lastId + 1 }
      exact ⟨lastId, Nat.le_of_succ_le hle, hleft⟩

/-- A scope that fails to open has given out ids, and nothing more. -/
theorem pushScope_left {names : List String} {reason : SemanticError} {y z : Symbols}
    (h : Symbols.pushScope names y = .error reason z) :
    ∃ lastId, y.lastId ≤ lastId ∧ z = { y with lastId } := by
  obtain ⟨lastId, hle, hleft⟩ := bindNames_left [] names y
  rcases bind_eq_error.1 h with h | ⟨_, _, _, h⟩
  · rw [h] at hleft
    exact ⟨lastId, hle, hleft⟩
  · cases h

theorem Keyed.raise (hs : s.Keyed) {lastId : Nat} (hle : s.symbols.lastId ≤ lastId) :
    Keyed { s with symbols := { s.symbols with lastId } } where
  slots := fun e he => Nat.le_trans (hs.slots e he) hle
  scopes := fun scope hscope e he => Nat.le_trans (hs.scopes scope hscope e he) hle

theorem quiet_openScope (names : List String) (slots : List Int) :
    Steady Quiet (openScope names slots) := by
  intro s
  cases h : openScope names slots s with
  | ok _ t =>
    obtain ⟨_, _, h1, h2⟩ := bind_eq_ok.1 h
    obtain ⟨-, rfl⟩ := pushScope_bindSlots h1 h2
    exact ⟨fun hs => hs.bound names slots, rfl, Nat.le_refl _, fun _ => ⟨rfl, rfl, rfl⟩⟩
  | error e t =>
    rcases bind_eq_error.1 h with h | ⟨_, _, _, h⟩
    · unfold pushScope onSymbols at h
      cases hp : Symbols.pushScope names s.symbols with
      | ok ids y =>
        simp only [hp] at h
        cases h
      | error e' y =>
        simp only [hp] at h
        cases h
        obtain ⟨lastId, hle, rfl⟩ := pushScope_left hp
        exact ⟨fun hs => hs.raise hle, rfl, Nat.le_refl _, fun _ => ⟨rfl, rfl, rfl⟩⟩
    · cases h

section Forms

variable {part condition body left right : Lower Unit} {parts conditions branches : List (Lower Unit)}

theorem quiet_pushValues (hp : ∀ part ∈ parts, Steady Quiet part) :
    Steady Quiet (pushValues parts) := by
  induction parts with
  | nil => exact quiet_pure []
  | cons part parts ih =>
    rw [List.forall_mem_cons] at hp
    exact hp.1.bind fun _ => (quiet_push _).bind fun slot => (ih hp.2).bind fun slots =>
      quiet_pure (slot :: slots)

theorem quiet_assign (x : String) (hv : Steady Quiet body) : Steady Quiet (assign x body) :=
  (quiet_slot x).bind fun _ => hv.bind fun _ => quiet_emit _

theorem quiet_loadVariable (x : String) : Steady Quiet (loadVariable x) :=
  (quiet_slot x).bind fun _ => quiet_emit _

theorem quiet_updateTarget (op : Operator) (e : Expr) : Steady Quiet (updateTarget op e) := by
  unfold updateTarget
  split
  · cases e with
    | «variable» x =>
      exact (quiet_slot x).bind (f := fun k => pure (some k)) fun k => quiet_pure (some k)
    | _ => exact Quiet.refl
  · exact quiet_pure none

theorem quiet_binary (op : Operator) (e : Expr) (hl : Steady Quiet left)
    (hr : Steady Quiet right) : Steady Quiet (binary op (updateTarget op e) left right) := by
  refine (quiet_updateTarget op e).bind fun target => hl.bind fun _ => (quiet_push _).bind fun a => ?_
  refine hr.bind fun _ => (quiet_push _).bind fun b => ?_
  refine (quiet_emit _).bind fun _ => (quiet_emit _).bind fun _ => ?_
  cases target with
  | none => exact quiet_drop 2
  | some slot => exact (quiet_emit _).bind fun _ => quiet_drop 2

theorem quiet_letIn (names : List String) (hv : ∀ part ∈ parts, Steady Quiet part)
    (hb : Steady Quiet body) : Steady Quiet (letIn names parts body) := by
  rw [letIn_eq]
  exact (quiet_pushValues hv).bind fun slots => (quiet_openScope names slots).bind fun _ =>
    hb.bind fun _ => quiet_popScope.bind fun _ => quiet_drop _

theorem quiet_concat (hp : ∀ part ∈ parts, Steady Quiet part) : Steady Quiet (concat parts) := by
  refine (quiet_pushValues hp).bind fun slots => quiet_freshHeap.bind fun cell => ?_
  refine (quiet_emit _).bind fun _ => (quiet_emit _).bind fun _ => ?_
  refine (Steady.forM Quiet.refl fun slot _ => quiet_emit _).bind fun _ => ?_
  exact (quiet_emit _).bind fun _ => (quiet_emit _).bind fun _ => quiet_drop _

theorem quiet_arm (mode : Mode) (result : Int) (hc : Steady Quiet condition)
    (hb : Steady Quiet body) : Steady Quiet (arm mode result condition body) := by
  refine hc.bind fun _ => quiet_here.bind fun skip => (quiet_emit _).bind fun _ => ?_
  refine hb.bind fun _ => (quiet_emit _).bind fun _ => quiet_here.bind fun leave => ?_
  have hskip : Steady Quiet (do patchHere skip; return leave) :=
    (quiet_patchHere skip).bind fun _ => quiet_pure leave
  by_cases hm : mode = .first
  · simp only [hm, if_true]
    exact (quiet_emit _).bind fun _ => hskip
  · simpa only [hm, if_false] using hskip

theorem quiet_arms (mode : Mode) (result : Int) (hc : ∀ part ∈ conditions, Steady Quiet part)
    (hb : ∀ part ∈ branches, Steady Quiet part) :
    Steady Quiet (arms mode result conditions branches) := by
  induction conditions generalizing branches with
  | nil => exact quiet_pure []
  | cons condition conditions ih =>
    cases branches with
    | nil => exact quiet_pure []
    | cons branch branches =>
      rw [List.forall_mem_cons] at hc hb
      rw [arms_cons]
      exact (quiet_arm mode result hc.1 hb.1).bind fun leave => (ih hc.2 hb.2).bind fun exits =>
        quiet_pure (if mode = .first then leave :: exits else exits)

theorem quiet_select (mode : Mode) (hc : ∀ part ∈ conditions, Steady Quiet part)
    (hb : ∀ part ∈ branches, Steady Quiet part) : Steady Quiet (select mode conditions branches) := by
  refine (quiet_push _).bind fun result => (quiet_arms mode result hc hb).bind fun exits => ?_
  refine (Steady.forM Quiet.refl fun exit _ => quiet_patchHere exit).bind fun _ => ?_
  exact (quiet_emit _).bind fun _ => quiet_drop 1

theorem quiet_loop (hc : Steady Quiet condition) (hb : Steady Quiet body) :
    Steady Quiet (loop condition body) := by
  refine (quiet_push _).bind fun result => quiet_here.bind fun top => hc.bind fun _ => ?_
  refine quiet_here.bind fun exit => (quiet_emit _).bind fun _ => hb.bind fun _ => ?_
  refine (quiet_emit _).bind fun _ => (quiet_emit _).bind fun _ => ?_
  exact (quiet_patchHere exit).bind fun _ => (quiet_emit _).bind fun _ => quiet_drop 1

theorem quiet_callWith (name : String) (ha : ∀ part ∈ parts, Steady Quiet part) :
    Steady Quiet (callWith name parts) := by
  refine (quiet_checkArity name _).bind fun _ => (quiet_pushValues ha).bind fun slots => ?_
  refine (Steady.forM Quiet.refl fun slot _ => (quiet_push _).bind fun _ => quiet_pure ()).bind
    fun _ => ?_
  exact (quiet_call name).bind fun _ => quiet_drop _

end Forms

mutual

theorem quiet_expr : ∀ e : Expr, Steady Quiet e.lower
  | .literal _ => quiet_emit _
  | .variable x => quiet_loadVariable x
  | .assign x value => quiet_assign x (quiet_expr value)
  | .letIn names values body => quiet_letIn names (quiet_all values) (quiet_expr body)
  | .loop condition body => quiet_loop (quiet_expr condition) (quiet_expr body)
  | .select mode conditions branches =>
    quiet_select mode (quiet_all conditions) (quiet_all branches)
  | .call name arguments => quiet_callWith name (quiet_all arguments)
  | .not operand => (quiet_expr operand).bind fun _ => quiet_emit _
  | .concat parts => quiet_concat (quiet_all parts)
  | .binary op left right => quiet_binary op left (quiet_expr left) (quiet_expr right)

theorem quiet_all : ∀ es : List Expr, ∀ part ∈ Expr.lowerAll es, Steady Quiet part
  | [] => nofun
  | e :: es => List.forall_mem_cons.2 ⟨quiet_expr e, quiet_all es⟩

end

end Lowering
end Sigil
