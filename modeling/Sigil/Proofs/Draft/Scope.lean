import Sigil.Proofs.Draft.Growth

/-!
Scopes opened by lowering. Ids are fresh, so that the slots of a scope that is closed again are
never met.
-/
namespace Sigil

namespace Symbols

theorem bindNames_cons {scope : List (String × Nat)} {name : String} (names : List String)
    (y : Symbols) (h : ¬ (scope.lookup name).isSome) :
    bindNames scope (name :: names) y =
      bindNames ((name, y.lastId + 1) :: scope) names { y with lastId := y.lastId + 1 } := by
  rw [bindNames]
  simp only [h]
  rfl

theorem bindNames_eq_ok {scope scope' : List (String × Nat)} {names : List String}
    {y y' : Symbols} (h : bindNames scope names y = .ok scope' y') :
    names.Nodup ∧ (∀ x ∈ names, scope.lookup x = none) ∧
      scope' = (names.zip (List.range' (y.lastId + 1) names.length)).reverse ++ scope ∧
      y' = { y with lastId := y.lastId + names.length } := by
  induction names generalizing scope y with
  | nil =>
    cases h
    exact ⟨.nil, by simp, rfl, rfl⟩
  | cons name names ih =>
    by_cases hname : (scope.lookup name).isSome
    · simp only [bindNames, hname, if_true] at h
      cases h
    · rw [bindNames_cons names y hname] at h
      obtain ⟨hn, hfree, rfl, rfl⟩ := ih h
      have hnot : name ∉ names := by
        intro hm
        have := hfree name hm
        simp at this
      refine ⟨List.nodup_cons.2 ⟨hnot, hn⟩, ?_, ?_, ?_⟩
      · intro x hx
        rcases List.mem_cons.1 hx with rfl | hx
        · exact Option.not_isSome_iff_eq_none.1 hname
        · have hne : (x == name) = false := by
            simp only [beq_eq_false_iff_ne, ne_eq]
            intro he
            exact hnot (he ▸ hx)
          have := hfree x hx
          rwa [List.lookup_cons, hne] at this
      · simp [List.range'_succ]
      · simp only [List.length_cons, Symbols.mk.injEq, true_and]
        omega

theorem pushScope_eq_ok {names : List String} {ids : List Nat} {y y' : Symbols}
    (h : pushScope names y = .ok ids y') :
    names.Nodup ∧ ids = List.range' (y.lastId + 1) names.length ∧
      y' = { y with
        scopes := (names.zip ids).reverse :: y.scopes
        lastId := y.lastId + names.length } := by
  obtain ⟨scope, z, hb, h⟩ := bind_eq_ok.1 h
  obtain ⟨hn, -, rfl, rfl⟩ := bindNames_eq_ok hb
  have hids : (names.zip (List.range' (y.lastId + 1) names.length)).map Prod.snd =
      List.range' (y.lastId + 1) names.length := by
    rw [List.map_snd_zip]
    simp
  cases h
  simp only [List.append_nil, List.reverse_reverse, hids]
  exact ⟨hn, trivial, trivial⟩

end Symbols

namespace Lowering

variable {s t u : Lowering} {n : Int} {code : List Draft} {names : List String} {slots : List Int}

def freshIds (s : Lowering) (names : List String) : List Nat :=
  List.range' (s.symbols.lastId + 1) names.length

def bound (s : Lowering) (names : List String) (slots : List Int) : Lowering :=
  { s with
    symbols :=
      { s.symbols with
        scopes := (names.zip (s.freshIds names)).reverse :: s.symbols.scopes
        lastId := s.symbols.lastId + names.length }
    slots := (s.freshIds names).zip slots ++ s.slots }

/-- Opening a scope and giving its names slots. -/
theorem pushScope_bindSlots {ids : List Nat} (h : pushScope names s = .ok ids t)
    (hb : bindSlots (ids.zip slots) t = .ok () u) : names.Nodup ∧ u = s.bound names slots := by
  unfold pushScope onSymbols at h
  cases hscope : Symbols.pushScope names s.symbols with
  | error e y =>
    simp only [hscope] at h
    cases h
  | ok ids' y =>
    simp only [hscope] at h
    cases h
    cases hb
    obtain ⟨hn, rfl, rfl⟩ := Symbols.pushScope_eq_ok hscope
    exact ⟨hn, rfl⟩

theorem freshIds_nodup (s : Lowering) (names : List String) : (s.freshIds names).Nodup :=
  List.nodup_range'

theorem lt_of_mem_freshIds {id : Nat} (h : id ∈ s.freshIds names) :
    s.symbols.lastId < id ∧ id ≤ s.symbols.lastId + names.length := by
  have := List.mem_range'_1.1 h
  omega

theorem Keyed.bound (hs : s.Keyed) (names : List String) (slots : List Int) :
    (s.bound names slots).Keyed where
  slots := by
    intro e he
    show e.1 ≤ s.symbols.lastId + names.length
    rcases List.mem_append.1 he with he | he
    · exact (lt_of_mem_freshIds (List.of_mem_zip he).1).2
    · have := hs.slots e he
      omega
  scopes := by
    intro scope hscope e he
    show e.2 ≤ s.symbols.lastId + names.length
    rcases List.mem_cons.1 hscope with rfl | hscope
    · exact (lt_of_mem_freshIds (List.of_mem_zip (List.mem_reverse.1 he)).2).2
    · have := hs.scopes scope hscope e he
      omega

/-- What the new scope says of a name. -/
theorem bound_frames (hs : s.Keyed) (hn : names.Nodup) (slots : List Int) :
    (s.bound names slots).frames =
      (fun x => if x ∈ names then some ((names.zip slots).lookup x) else none) :: s.frames := by
  have hlen : (s.freshIds names).length = names.length := List.length_range'
  have hnew : ∀ e ∈ (s.freshIds names).zip slots, s.symbols.lastId < e.1 :=
    fun e he => (lt_of_mem_freshIds (List.of_mem_zip he).1).1
  rw [← hs.frames_append hnew]
  simp only [frames, bound, List.map_cons]
  congr 1
  funext x
  by_cases hx : x ∈ names
  · obtain ⟨i, hi⟩ := List.getElem?_of_mem hx
    obtain ⟨id, hid⟩ : ∃ id, (s.freshIds names)[i]? = some id := by
      have := (List.getElem?_eq_some_iff.1 hi).1
      exact ⟨_, List.getElem?_eq_getElem (by omega)⟩
    have hold : s.slots.lookup id = none := by
      refine List.lookup_eq_none_iff.2 fun e he => ?_
      have := hs.slots e he
      have := lt_of_mem_freshIds (List.mem_of_getElem? hid)
      simp only [bne_iff_ne, ne_eq]
      omega
    rw [lookup_reverse_zip hn hlen.symm, lookup_zip hn hi, hid]
    simp only [Option.map_some, List.lookup_append, hold, Option.or_none,
      lookup_zip (s.freshIds_nodup names) hid, if_pos hx, lookup_zip hn hi]
  · have hnone : (names.zip (s.freshIds names)).lookup x = none := lookup_zip_of_not_mem hx
    rw [lookup_reverse_zip hn hlen.symm, hnone, if_neg hx]
    rfl

theorem bound_slot? (hs : s.Keyed) (hn : names.Nodup) (slots : List Int) :
    (s.bound names slots).slot? = (s.layout.bind names slots).slot? := by
  funext x
  rw [slot?_eq_frames, bound_frames hs hn, List.findSome?_cons]
  by_cases hx : x ∈ names
  · simp [Layout.bind, hx]
  · simp [Layout.bind, hx, slot?_eq_frames]

theorem bound_layout (hs : s.Keyed) (hn : names.Nodup) (slots : List Int) :
    (s.bound names slots).layout = s.layout.bind names slots := by
  have h := bound_slot? hs hn slots
  simp only [layout, Layout.bind] at h ⊢
  rw [h]
  rfl

/-- A scope that is closed again leaves nothing but slots of ids that are no longer in use. -/
theorem Rises.unbound {cells : Nat} (h : Rises (s.bound names slots) n cells t)
    (hp : popScope t = .ok () u) : Rises s n cells u := by
  have hlast : s.symbols.lastId + names.length ≤ t.symbols.lastId := h.lastId
  cases hp
  exact { h with
    scopes := by
      show t.symbols.scopes.tail = _
      rw [h.scopes]
      rfl
    lastId := Nat.le_of_add_right_le hlast
    slots := by
      obtain ⟨new, hnew, hid⟩ := h.slots
      refine ⟨new ++ (s.freshIds names).zip slots, by simpa [bound] using hnew,
        List.forall_mem_append.2 ⟨fun e he => ?_, fun e he => ?_⟩⟩
      · exact ⟨Nat.lt_of_le_of_lt (Nat.le_add_right _ _) (hid e he).1, (hid e he).2⟩
      · have := lt_of_mem_freshIds (List.of_mem_zip he).1
        exact ⟨this.1, Nat.le_trans this.2 hlast⟩ }

theorem Grows.unbound (h : Grows (s.bound names slots) n code t) (hp : popScope t = .ok () u) :
    Grows s n code u := by
  have hrises := h.toRises.unbound hp
  cases hp
  exact { h with toRises := hrises }

end Lowering
end Sigil
