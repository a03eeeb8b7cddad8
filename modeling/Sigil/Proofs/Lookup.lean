/-! Looking keys up in lists of pairs. -/
namespace Sigil

theorem mem_of_lookup {α β : Type} [BEq α] [LawfulBEq α] {x : α} {y : β} {l : List (α × β)}
    (h : l.lookup x = some y) : (x, y) ∈ l := by
  obtain ⟨_, _, rfl, -⟩ := List.lookup_eq_some_iff.1 h
  simp

theorem lookup_isSome {α β : Type} [BEq α] [LawfulBEq α] {x : α} {l : List (α × β)} :
    (l.lookup x).isSome ↔ x ∈ l.map Prod.fst := by
  constructor
  · intro h
    obtain ⟨y, hy⟩ := Option.isSome_iff_exists.1 h
    exact List.mem_map_of_mem (f := Prod.fst) (mem_of_lookup hy)
  · intro h
    obtain ⟨e, he, rfl⟩ := List.mem_map.1 h
    cases hx : l.lookup e.1 with
    | some y => rfl
    | none =>
      have hne := List.lookup_eq_none_iff.1 hx e he
      simp at hne

theorem lookup_of_mem {α β : Type} [BEq α] [LawfulBEq α] {x : α} {y : β} {l : List (α × β)}
    (hn : (l.map Prod.fst).Nodup) (h : (x, y) ∈ l) : l.lookup x = some y := by
  induction l with
  | nil => cases h
  | cons e l ih =>
    rw [List.map_cons, List.nodup_cons] at hn
    rcases List.mem_cons.1 h with rfl | h
    · simp
    · have hx : (x == e.1) = false := by
        have := List.mem_map_of_mem (f := Prod.fst) h
        simp only [beq_eq_false_iff_ne, ne_eq]
        rintro rfl
        exact hn.1 this
      rw [List.lookup_cons, hx]
      exact ih hn.2 h

theorem lookup_zip {α β : Type} [BEq α] [LawfulBEq α] {x : α} {names : List α} {ys : List β} {i : Nat}
    (hn : names.Nodup) (hi : names[i]? = some x) : (names.zip ys).lookup x = ys[i]? := by
  induction names generalizing ys i with
  | nil => simp at hi
  | cons name names ih =>
    cases ys with
    | nil => simp
    | cons y ys =>
      cases i with
      | zero =>
        have hx : name = x := by simpa using hi
        simp [hx]
      | succ i =>
        rw [List.getElem?_cons_succ] at hi
        have hx : (x == name) = false := by
          have := List.mem_of_getElem? hi
          simp only [beq_eq_false_iff_ne, ne_eq]
          rintro rfl
          exact (List.nodup_cons.1 hn).1 this
        rw [List.zip_cons_cons, List.lookup_cons, hx, List.getElem?_cons_succ]
        exact ih (List.nodup_cons.1 hn).2 hi

theorem lookup_zip_of_not_mem {α β : Type} [BEq α] [LawfulBEq α] {x : α} {names : List α}
    {ys : List β} (h : x ∉ names) : (names.zip ys).lookup x = none := by
  refine List.lookup_eq_none_iff.2 fun e he => ?_
  have := (List.of_mem_zip he).1
  simp only [bne_iff_ne, ne_eq]
  rintro rfl
  exact h this

theorem exists_lookup_zip {α β : Type} [BEq α] [LawfulBEq α] {x : α} {names : List α} {ys : List β}
    (hl : names.length = ys.length) (hx : x ∈ names) : ∃ y, (names.zip ys).lookup x = some y := by
  have hkeys : (names.zip ys).map Prod.fst = names := List.map_fst_zip (Nat.le_of_eq hl)
  exact Option.isSome_iff_exists.1 (lookup_isSome.2 (hkeys.symm ▸ hx))

theorem lookup_reverse {α β : Type} [BEq α] [LawfulBEq α] {l : List (α × β)}
    (hn : (l.map Prod.fst).Nodup) (x : α) : l.reverse.lookup x = l.lookup x := by
  cases h : l.lookup x with
  | none =>
    refine List.lookup_eq_none_iff.2 fun e he => ?_
    exact List.lookup_eq_none_iff.1 h e (List.mem_reverse.1 he)
  | some y =>
    refine lookup_of_mem ?_ (List.mem_reverse.2 (mem_of_lookup h))
    rw [List.map_reverse]
    exact List.pairwise_reverse.2 (hn.imp Ne.symm)

theorem lookup_reverse_zip {α β : Type} [BEq α] [LawfulBEq α] {x : α} {names : List α} {ys : List β}
    (hn : names.Nodup) (hl : names.length = ys.length) :
    (names.zip ys).reverse.lookup x = (names.zip ys).lookup x := by
  have hkeys : (names.zip ys).map Prod.fst = names := List.map_fst_zip (Nat.le_of_eq hl)
  exact lookup_reverse (hkeys.symm ▸ hn) x

end Sigil
