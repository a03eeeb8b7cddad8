import Sigil.Proofs.Session.Basic
import Sigil.Proofs.Session.Quiet

/-!
What a failed compilation means for later ones. It goes unnoticed if it had emitted nothing and opened no
scope; otherwise what it emitted is found at the start of the next code.
-/
namespace Sigil

namespace Lowering

variable {s t : Lowering} {e : SemanticError}

def Retains (s t : Lowering) : Prop := t.code.size = 0 → s.code.size = 0

instance : IsTrans Lowering Retains where
  trans _ _ _ h g := fun hu => h (g hu)

theorem Quiet.retains (h : Quiet s t) : Retains s t := fun ht => (h.silent ht).1 ▸ ht

theorem Steady.retains {α : Type} {x : Lower α} (hx : Steady Quiet x) : Steady Retains x :=
  fun s => (hx s).retains

theorem retains_function (f : Function) : Steady Retains f.lower := by
  rw [function_eq]
  have hstart : Steady Retains (startBlock f.name) := fun _ => id
  have hground : Steady Retains (modify fun s => { s with offset := 0 }) := fun _ => id
  refine hstart.bind fun _ => hground.bind fun _ => ?_
  exact (quiet_openScope _ _).retains.bind fun _ => (quiet_expr f.body).retains.bind fun _ =>
    quiet_popScope.retains.bind fun _ => (quiet_emit _).retains

theorem size_linkSites (l : Linker) (sites : List (Nat × String)) (code : Code) :
    (leftBy (l.linkSites sites code)).size = code.size := by
  induction sites generalizing code with
  | nil => rfl
  | cons site sites ih =>
    obtain ⟨site, name⟩ := site
    rw [Linker.linkSites]
    cases l.address? name with
    | none => rfl
    | some target =>
      simp only [bind_of_ok (get_eq code)]
      cases hp : code.patch? site target with
      | none => rfl
      | some patched => exact (ih patched).trans (Code.size_of_patch? hp)

theorem retains_link : Steady Retains link := by
  intro s ht
  have hsize := size_linkSites s.linker s.linker.sites s.code
  unfold link Linker.link at ht
  cases hl : s.linker.linkSites s.linker.sites s.code with
  | ok _ code =>
    simp only [hl] at ht hsize
    exact hsize.symm.trans ht
  | error e code =>
    simp only [hl] at ht hsize
    exact hsize.symm.trans ht

/-- Registering functions adds some of them, and gives out ids. -/
theorem register_all_left (fs : List Function) (s : Lowering) :
    ∃ new lastId, (∀ e ∈ new, e.1 ∈ fs.map Function.name) ∧ s.symbols.lastId ≤ lastId ∧
      leftBy (fs.forM Function.register s) = { s with symbols :=
        { s.symbols with functions := new ++ s.symbols.functions, lastId } } := by
  induction fs generalizing s with
  | nil => exact ⟨[], _, nofun, Nat.le_refl _, rfl⟩
  | cons f fs ih =>
    have hregister := f.register_eq s
    by_cases hname : (s.symbols.arity? f.name).isSome
    · rw [if_pos hname] at hregister
      refine ⟨[], _, nofun, Nat.le_refl _, ?_⟩
      show leftBy ((f.register >>= fun _ => fs.forM Function.register) s) = _
      rw [bind_of_error hregister]
      rfl
    · rw [if_neg hname] at hregister
      obtain ⟨new, lastId, hnew, hle, hleft⟩ := ih { s with symbols :=
        { s.symbols with
          functions := (f.name, f.parameters.length) :: s.symbols.functions
          lastId := s.symbols.lastId + 1 } }
      refine ⟨new ++ [(f.name, f.parameters.length)], lastId, ?_, Nat.le_of_succ_le hle, ?_⟩
      · intro e he
        rcases List.mem_append.1 he with he | he
        · exact List.mem_cons_of_mem _ (hnew e he)
        · rw [List.mem_singleton.1 he]
          exact List.mem_cons_self
      · show leftBy ((f.register >>= fun _ => fs.forM Function.register) s) = _
        rw [bind_of_ok hregister, hleft]
        simp

end Lowering

namespace Program

open Lowering

variable {p bad : Program} {s t : Lowering} {e : SemanticError}

/-- A program that fails with nothing emitted fails in its body, or before. -/
theorem quiet_of_lower (h : bad.lower s = .error e t) (ht : t.code.size = 0) :
    ∃ new lastId, (∀ entry ∈ new, entry.1 ∈ bad.names) ∧ s.symbols.lastId ≤ lastId ∧
      Quiet { s with symbols :=
        { s.symbols with functions := new ++ s.symbols.functions, lastId } } t := by
  obtain ⟨new, lastId, hnew, hle, hleft⟩ := register_all_left bad.functions s
  refine ⟨new, lastId, hnew, hle, ?_⟩
  rw [← hleft]
  rcases bind_eq_error.1 h with h | ⟨_, s1, h1, h⟩
  · rw [h]
    exact .refl t
  rcases bind_eq_error.1 h with h | ⟨_, s2, h2, h⟩
  · have hbody := quiet_expr bad.body s1
    rw [h] at hbody
    rw [h1]
    exact hbody
  rcases bind_eq_error.1 h with h | ⟨_, s3, h3, h⟩
  · cases h
  -- there is code now, and it is not lost again
  have hsize : s3.code.size ≠ 0 := by
    cases h3
    exact Nat.ne_of_gt (size_emit_pos _ _)
  have hfunctions : Steady Retains (bad.functions.forM Function.lower) :=
    Steady.forM (fun _ => id) fun f _ => retains_function f
  have h3' := hfunctions s3
  rcases bind_eq_error.1 h with h | ⟨_, s4, h4, h⟩
  · rw [h] at h3'
    exact absurd (h3' ht) hsize
  rw [h4] at h3'
  rcases bind_eq_error.1 h with h | ⟨_, s5, h5, h⟩
  · have h4' := retains_link s4
    rw [h] at h4'
    exact absurd (h3' (h4' ht)) hsize
  · cases h

/-- A failure with nothing emitted and no scope opened changes nothing for programs that have nothing to
do with the functions it may have registered. -/
theorem mirrors_of_lower (hs : s.Idle) (h : bad.lower s = .error e t) (ht : t.code.size = 0)
    (hscopes : t.symbols.scopes = []) :
    Mirrors (· ∉ bad.names) (t.nextHeap - s.nextHeap) s t := by
  obtain ⟨new, lastId, hnew, hle, hquiet⟩ := quiet_of_lower h ht
  obtain ⟨hcode, hlinker, hoffset⟩ := hquiet.silent ht
  have hnextHeap : s.nextHeap ≤ t.nextHeap := hquiet.nextHeap
  have hkeyed : Keyed { s with symbols :=
      { s.symbols with functions := new ++ s.symbols.functions, lastId } } :=
    ⟨fun e he => Nat.le_trans (hs.keyed.slots e he) hle,
      fun scope hscope e he => Nat.le_trans (hs.keyed.scopes scope hscope e he) hle⟩
  exact {
    code := by
      show t.code = s.code.rename _
      rw [hcode, hs.code, Code.rename_empty]
    sites := congrArg Linker.sites hlinker
    named := by
      rw [hs.sites]
      exact nofun
    address := fun name _ => congrArg (fun l => Linker.address? l name) hlinker
    arity := fun name hname => by
      have hnone : new.lookup name = none := by
        refine List.lookup_eq_none_iff.2 fun e he => ?_
        simp only [bne_iff_ne, ne_eq]
        rintro rfl
        exact hname (hnew e he)
      rw [Symbols.arity?, hquiet.functions, List.lookup_append, hnone, Option.none_or]
      rfl
    frames := by rw [frames, frames, hscopes, hs.scopes, List.map_nil, List.map_nil]
    offset := hoffset
    nextHeap := (Nat.add_sub_of_le hnextHeap).symm
    keyed := ⟨hs.keyed, hquiet.keyed hkeyed⟩ }

def SameOutcome : EStateM.Result SemanticError Lowering Code →
    EStateM.Result SemanticError Lowering Code → Prop :=
  Alike (fun _ _ => True) (fun c c' => ∃ cell : Nat → Nat, cell.Injective ∧ c' = c.rename cell) Eq

/-- The attempt that led from `s` to `t` does not show: as many scopes are open, and every program
compiles as before that neither declares nor calls a function declared in the attempt. -/
def Traceless (bad : Program) (s t : Lowering) : Prop :=
  t.symbols.depth = s.symbols.depth ∧
    ∀ p : Program, (∀ name ∈ bad.names, name ∉ p.names ∧ name ∉ p.callees) →
      SameOutcome (p.lower s) (p.lower t)

/-- The code of a literal comes behind whatever was emitted before. -/
theorem size_of_lower_literal {v : Value} {code : Code}
    (h : (⟨[], .literal v⟩ : Program).lower s = .ok code t) : code.size = s.code.size + 2 := by
  simp only [lower, bind_eq_ok] at h
  obtain ⟨_, s1, h1, _, s2, h2, _, s3, h3, _, s4, h4, _, s5, h5, h6⟩ := h
  cases h1
  cases h2
  cases h3
  cases h4
  cases h6
  have hlinked := size_linkSites s.linker s.linker.sites
    ((s.code.emit (.move .accumulator (.constant v))).emit (.exit .accumulator))
  rw [(link_eq_ok h5).1] at hlinked
  exact hlinked.trans (by simp)

theorem lower_literal (hs : s.Idle) (v : Value) :
    ∃ code t, (⟨[], .literal v⟩ : Program).lower s = .ok code t := by
  have hlink : ∀ u : Lowering, u.linker.sites = [] → ∃ t, link u = .ok () t := by
    intro u hu
    unfold link Linker.link
    simp only [hu]
    exact ⟨_, rfl⟩
  let u : Lowering := { s with
    code := (s.code.emit (.move .accumulator (.constant v))).emit (.exit .accumulator) }
  obtain ⟨t, ht⟩ := hlink u hs.sites
  refine ⟨t.code, { t with code := .empty }, ?_⟩
  simp only [lower, bind_eq_ok]
  exact ⟨_, s, rfl, _, _, rfl, _, u, rfl, _, u, rfl, _, t, ht, rfl⟩

end Program

open Program in
/-- A failed compilation leaves no trace just if it emitted nothing and opened no scope. -/
theorem Session.traceless_iff {cs : List Compilation} {s t : Lowering} {bad : Program}
    {e : SemanticError} (hs : Session cs s) (h : bad.lower s = .error e t) :
    Traceless bad s t ↔ t.code.size = 0 ∧ t.symbols.depth = 0 := by
  have hdepth : s.symbols.depth = 0 := congrArg List.length hs.idle.scopes
  constructor
  · rintro ⟨hopen, hsame⟩
    refine ⟨?_, hopen.trans hdepth⟩
    have hliteral := hsame ⟨[], .literal .zero⟩ fun _ _ => ⟨nofun, nofun⟩
    obtain ⟨code, u, hcode⟩ := lower_literal hs.idle .zero
    have hsize := size_of_lower_literal hcode
    rw [hcode] at hliteral
    cases hcode' : (⟨[], .literal .zero⟩ : Program).lower t with
    | error e' u' =>
      rw [hcode'] at hliteral
      cases hliteral
    | ok code' u' =>
      rw [hcode'] at hliteral
      have hsize' := size_of_lower_literal hcode'
      cases hliteral with
      | ok hv _ =>
        obtain ⟨cell, -, rfl⟩ := hv
        rw [Code.size_rename, hsize, hs.idle.code] at hsize'
        exact (Nat.add_right_cancel hsize').symm
  · rintro ⟨hsize, hclosed⟩
    refine ⟨hclosed.trans hdepth.symm, fun p hp => ?_⟩
    have hmirrors := mirrors_of_lower hs.idle h hsize (List.length_eq_zero_iff.1 hclosed)
    have halike := Lowering.mirrored_program (p := p) (fun name hname hbad => (hp name hbad).1 hname)
      (fun name hname hbad => (hp name hbad).2 hname) s t hmirrors
    revert halike
    generalize p.lower s = r
    generalize p.lower t = r'
    rintro (⟨hv, -⟩ | ⟨he⟩)
    · exact .ok ⟨_, fun a b => Nat.add_right_cancel, hv⟩ trivial
    · exact .error he

def Program.greeting : Program :=
  ⟨[⟨"greet", ["x"], .concat [.literal (.string "hi "), .variable "x"]⟩],
    .call "greet" [.literal (.string "you")]⟩

def Program.unfinished : Program := ⟨[⟨"same", ["x"], .variable "x"⟩], .variable "y"⟩

open Program in
/-- A program whose body is an unknown name fails before anything is emitted, at the start as well as
behind another program, where a function of its own stays declared. -/
theorem Session.traceless_unknown :
    (∃ e t, (⟨[], .variable "y"⟩ : Program).lower .start = .error e t ∧
      Traceless ⟨[], .variable "y"⟩ .start t) ∧
    ∃ code s e t, Session [⟨greeting, code⟩] s ∧ unfinished.lower s = .error e t ∧
      t.symbols.arity? "same" = some 1 ∧ Traceless unfinished s t := by
  refine ⟨⟨_, _, rfl, (traceless_iff .start rfl).2 ⟨rfl, rfl⟩⟩, ?_⟩
  have hs : Session [⟨greeting, _⟩] _ := .next .start rfl
  exact ⟨_, _, _, _, hs, rfl, rfl, (traceless_iff hs rfl).2 ⟨rfl, rfl⟩⟩

open Program in
/-- Not every failed compilation leaves no trace: here the value of a variable has been emitted and its
scope opened, and the code of the next program starts with it. -/
theorem Session.not_traceless : ¬ ∀ cs s bad e t, Session cs s → bad.lower s = .error e t →
    Traceless bad s t := by
  intro h
  obtain ⟨-, hsame⟩ := h [] .start ⟨[], .letIn ["x"] [.literal .zero] (.variable "y")⟩ _ _ .start rfl
  have hliteral := hsame ⟨[], .literal .zero⟩ nofun
  cases hliteral with
  | ok hv _ =>
    obtain ⟨cell, -, hcode⟩ := hv
    have hsize := congrArg Code.size hcode
    rw [Code.size_rename] at hsize
    cases hsize

end Sigil
