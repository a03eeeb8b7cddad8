import Sigil.Proofs.Draft.Program
import Sigil.Proofs.Session.Quiet

/-!
The laws of the symbol table over all histories of its use, refusals included. A history is what was
asked for and what was answered, the newest first.
-/
namespace Sigil.Symbols

inductive Request where
  | register (name : String) (arity : Nat)
  | push (names : List String)
  | pop
deriving DecidableEq, Repr

def Request.perform : Request → Update (List Nat)
  | .register name arity => do
    let id ← Symbols.register name arity
    return [id]
  | .push names => pushScope names
  | .pop => do
    modify popScope
    return []

inductive Event where
  | granted (request : Request) (ids : List Nat)
  | refused (request : Request) (reason : SemanticError)
deriving DecidableEq, Repr

def Event.Happens (y : Symbols) : Event → Symbols → Prop
  | .granted request ids, z => request.perform y = .ok ids z
  | .refused request reason, z => request.perform y = .error reason z

inductive History (y : Symbols) : List Event → Symbols → Prop
  | start : History y [] y
  | next {events : List Event} {event : Event} {z z' : Symbols} (before : History y events z)
      (h : event.Happens z z') : History y (event :: events) z'

def handedOut : List Event → List Nat
  | [] => []
  | .granted _ ids :: earlier => handedOut earlier ++ ids
  | .refused _ _ :: earlier => handedOut earlier

/-- The scopes that were opened and not closed since, innermost first, each with the ids that were
returned for its names. -/
def openScopes : List Event → List (List (String × Nat))
  | [] => []
  | .granted (.push names) ids :: earlier => names.zip ids :: openScopes earlier
  | .granted .pop _ :: earlier => (openScopes earlier).tail
  | .granted (.register _ _) _ :: earlier | .refused _ _ :: earlier => openScopes earlier

def Event.opens : Event → Bool
  | .granted (.push _) _ => true
  | _ => false

def Event.closes : Event → Bool
  | .granted .pop _ => true
  | _ => false

structure Balanced (events : List Event) : Prop where
  settled : events.countP Event.closes = events.countP Event.opens
  within : ∀ earlier, earlier <:+ events → earlier.countP Event.closes ≤ earlier.countP Event.opens

inductive Effect (y : Symbols) : Event → Symbols → Prop
  | registered {name : String} (arity : Nat) (hnew : y.arity? name = none) :
      Effect y (.granted (.register name arity) [y.lastId + 1])
        { y with functions := (name, arity) :: y.functions, lastId := y.lastId + 1 }
  | opened {names : List String} (hn : names.Nodup) :
      Effect y (.granted (.push names) (List.range' (y.lastId + 1) names.length))
        { y with
          scopes := (names.zip (List.range' (y.lastId + 1) names.length)).reverse :: y.scopes
          lastId := y.lastId + names.length }
  | closed : Effect y (.granted .pop []) y.popScope
  | refused (request : Request) (reason : SemanticError) {lastId : Nat} (hle : y.lastId ≤ lastId) :
      Effect y (.refused request reason) { y with lastId }

variable {y z : Symbols} {event : Event} {events later : List Event}

theorem Event.Happens.effect (h : event.Happens y z) : Effect y event z := by
  cases event with
  | granted request ids =>
    cases request with
    | register name arity =>
      obtain ⟨id, y', hregister, hids⟩ := bind_eq_ok.1 h
      rw [register_eq] at hregister
      split at hregister
      · cases hregister
      · next hname =>
        cases hregister
        cases hids
        exact .registered arity (Option.not_isSome_iff_eq_none.1 hname)
    | push names =>
      obtain ⟨hn, rfl, rfl⟩ := pushScope_eq_ok h
      exact .opened hn
    | pop =>
      cases h
      exact .closed
  | refused request reason =>
    cases request with
    | register name arity =>
      rcases bind_eq_error.1 h with h | ⟨_, _, _, h⟩
      · rw [register_eq] at h
        split at h <;> cases h
        exact .refused _ _ (Nat.le_refl y.lastId)
      · cases h
    | push names =>
      obtain ⟨lastId, hle, rfl⟩ := Lowering.pushScope_left h
      exact .refused _ _ hle
    | pop => cases h

structure Recorded (events : List Event) (y : Symbols) : Prop where
  ascending : (handedOut events).Pairwise (· < ·)
  spent : ∀ id ∈ handedOut events, id ≤ y.lastId
  scopes : y.scopes = (openScopes events).map List.reverse
  keys : ∀ scope ∈ openScopes events, (scope.map Prod.fst).Nodup
  arities : ∀ name arity, y.arity? name = some arity ↔
    ∃ ids, .granted (.register name arity) ids ∈ events

theorem Recorded.empty : Recorded [] .empty where
  ascending := .nil
  spent := nofun
  scopes := rfl
  keys := nofun
  arities := by simp [arity?, Symbols.empty]

/-- Ids that are new go behind those that were handed out before. -/
theorem Recorded.ascending_append (h : Recorded events y) (n : Nat) :
    (handedOut events ++ List.range' (y.lastId + 1) n).Pairwise (· < ·) := by
  refine List.pairwise_append.2 ⟨h.ascending, List.pairwise_lt_range', fun id hid new hnew => ?_⟩
  have := h.spent id hid
  have := List.mem_range'_1.1 hnew
  omega

theorem Recorded.spent_append (h : Recorded events y) (n : Nat) :
    ∀ id ∈ handedOut events ++ List.range' (y.lastId + 1) n, id ≤ y.lastId + n := by
  intro id hid
  rcases List.mem_append.1 hid with hid | hid
  · exact Nat.le_add_right_of_le (h.spent id hid)
  · have := List.mem_range'_1.1 hid
    omega

theorem Recorded.next (h : Recorded events y) (he : Effect y event z) : Recorded (event :: events) z := by
  cases he with
  | @registered name arity hnew =>
    exact
      { ascending := h.ascending_append 1
        spent := h.spent_append 1
        scopes := h.scopes
        keys := h.keys
        arities := by
          intro other found
          by_cases ho : other = name
          · subst ho
            have hfree : ∀ ids, .granted (.register other found) ids ∉ events := fun ids hids =>
              absurd ((h.arities other found).2 ⟨ids, hids⟩) (by simp [hnew])
            simp [arity?, hfree, eq_comm]
          · have hold := h.arities other found
            simp only [arity?] at hold
            simp [arity?, List.lookup_cons, beq_eq_false_iff_ne.2 ho, hold, ho] }
  | @opened names hn =>
    exact
      { ascending := h.ascending_append names.length
        spent := h.spent_append names.length
        scopes := by rw [h.scopes, openScopes, List.map_cons]
        keys := by
          refine List.forall_mem_cons.2 ⟨?_, h.keys⟩
          rwa [List.map_fst_zip (by simp)]
        arities := by simpa [arity?] using h.arities }
  | closed =>
    exact
      { ascending := by simpa [handedOut] using h.ascending
        spent := by simpa [handedOut, popScope] using h.spent
        scopes := by
          show y.scopes.tail = _
          rw [h.scopes, openScopes, List.map_tail]
        keys := fun scope hscope => h.keys scope (List.mem_of_mem_tail hscope)
        arities := by simpa [arity?, popScope] using h.arities }
  | refused request reason hle =>
    exact
      { ascending := h.ascending
        spent := fun id hid => Nat.le_trans (h.spent id hid) hle
        scopes := h.scopes
        keys := h.keys
        arities := by simpa [arity?] using h.arities }

theorem History.recorded (h : History .empty events y) : Recorded events y := by
  induction h with
  | start => exact .empty
  | next _ h ih => exact ih.next h.effect

theorem findSome?_lookup_reverse {scopes : List (List (String × Nat))}
    (h : ∀ scope ∈ scopes, (scope.map Prod.fst).Nodup) (name : String) :
    (scopes.map List.reverse).findSome? (fun scope => scope.lookup name) =
      scopes.findSome? fun scope => scope.lookup name := by
  induction scopes with
  | nil => rfl
  | cons scope scopes ih =>
    rw [List.forall_mem_cons] at h
    rw [List.map_cons, List.findSome?_cons, List.findSome?_cons, lookup_reverse h.1, ih h.2]

/-- As long as nothing is closed that was open at the start, the scopes of the start stay below those
that were opened since. -/
theorem History.scopes (h : History y later z)
    (hw : ∀ earlier, earlier <:+ later → earlier.countP Event.closes ≤ earlier.countP Event.opens) :
    ∃ inner, z.scopes = inner ++ y.scopes ∧
      inner.length + later.countP Event.closes = later.countP Event.opens := by
  induction h with
  | start => exact ⟨[], rfl, rfl⟩
  | @next events event z z' _ h ih =>
    obtain ⟨inner, hinner, hlen⟩ := ih fun earlier he => hw earlier (List.suffix_cons_iff.2 (.inr he))
    have hlast := hw _ (List.suffix_refl _)
    rw [List.countP_cons, List.countP_cons] at hlast ⊢
    cases h.effect with
    | registered | refused => exact ⟨inner, hinner, hlen⟩
    | opened =>
      refine ⟨_ :: inner, by rw [hinner]; rfl, ?_⟩
      simp only [Event.opens, Event.closes, List.length_cons, if_true, Bool.false_eq_true, if_false]
      omega
    | closed =>
      simp only [Event.opens, Event.closes, if_true, Bool.false_eq_true, if_false] at hlast ⊢
      cases inner with
      | nil =>
        rw [List.length_nil] at hlen
        omega
      | cons scope inner =>
        refine ⟨inner, by show z.scopes.tail = _; rw [hinner]; rfl, ?_⟩
        rw [List.length_cons] at hlen
        omega

/-- A refusal leaves no trace but ids that are used up. -/
theorem Event.Happens.refused {request : Request} {reason : SemanticError}
    (h : Event.Happens y (.refused request reason) z) :
    z.arity? = y.arity? ∧ z.depth = y.depth ∧ z.binding? = y.binding? := by
  cases h.effect
  exact ⟨rfl, rfl, rfl⟩

/-- With every scope closed again that was opened, the scopes are those of the start. -/
theorem History.binding?_of_balanced (h : History y later z) (hb : Balanced later) :
    z.binding? = y.binding? := by
  obtain ⟨inner, hinner, hlen⟩ := h.scopes hb.within
  have hnil : inner = [] := by
    rw [hb.settled] at hlen
    exact List.length_eq_zero_iff.1 (by omega)
  subst hnil
  funext name
  rw [Symbols.binding?, hinner]
  rfl

/-- In every history of a new table the ids are handed out in strictly ascending order, so that none
is given twice; a variable has the id that was returned for it by the innermost scope that is still
open and binds it; a function has the arity that it was registered with, whenever that was; a refusal
changes no function, no depth and no variable; and neither does opening and closing scopes in balance
change a variable. -/
theorem History.laws (h : History .empty events y) :
    (handedOut events).Pairwise (· < ·) ∧
      (∀ name, y.binding? name = (openScopes events).findSome? fun scope => scope.lookup name) ∧
      (∀ name arity, y.arity? name = some arity ↔
        ∃ ids, .granted (.register name arity) ids ∈ events) ∧
      (∀ (request : Request) reason z, request.perform y = .error reason z →
        z.arity? = y.arity? ∧ z.depth = y.depth ∧ z.binding? = y.binding?) ∧
      ∀ later z, History y later z → Balanced later → z.binding? = y.binding? := by
  have hr := h.recorded
  refine ⟨hr.ascending, fun name => ?_, hr.arities, ?_, fun later z hz hb => hz.binding?_of_balanced hb⟩
  · rw [binding?, hr.scopes, findSome?_lookup_reverse hr.keys]
  · intro request reason z hz
    have hrefused : Event.Happens y (.refused request reason) z := hz
    exact hrefused.refused

def shadowing : List Event :=
  [.granted (.push ["a"]) [5], .refused (.push ["c", "c"]) (.duplicateBinding "c"),
    .granted (.push ["a", "b"]) [2, 3], .refused (.register "f" 1) (.functionRedeclared "f"),
    .granted (.register "f" 2) [1]]

/-- What was seen while a variable is shadowed once more is seen again afterwards. -/
theorem History.shadowing_laws :
    ∃ y z, History .empty shadowing y ∧
      History y [.granted .pop [], .granted (.push ["b"]) [6]] z ∧
      y.binding? "a" = some 5 ∧ y.binding? "b" = some 3 ∧ z.arity? "f" = some 2 ∧
      z.binding? = y.binding? := by
  have hy : History .empty shadowing ⟨[("f", 2)], [[("a", 5)], [("b", 3), ("a", 2)]], 5⟩ :=
    .next (.next (.next (.next (.next .start rfl) rfl) rfl) rfl) rfl
  have hz : History ⟨[("f", 2)], [[("a", 5)], [("b", 3), ("a", 2)]], 5⟩
      [.granted .pop [], .granted (.push ["b"]) [6]]
      ⟨[("f", 2)], [[("a", 5)], [("b", 3), ("a", 2)]], 6⟩ := .next (.next .start rfl) rfl
  have hpair : Balanced [.granted .pop [], .granted (.push ["b"]) [6]] := by
    refine ⟨rfl, ?_⟩
    simp only [List.suffix_cons_iff, List.suffix_nil, forall_eq_or_imp, forall_eq]
    decide
  obtain ⟨-, hbinding, -, -, hbalanced⟩ := laws hy
  exact ⟨_, _, hy, hz, (hbinding "a").trans (by decide), (hbinding "b").trans (by decide), by decide,
    hbalanced _ _ hz hpair⟩

end Sigil.Symbols
