import Sigil.Proofs.Machine.Run

/-!
Actions that do alike: from related states both succeed with related values, or both fail.
-/
namespace Sigil

variable {ε σ τ α β γ δ ι : Type}

inductive Alike (Q : σ → τ → Prop) (V : α → β → Prop) (E : ε → ε → Prop) :
    EStateM.Result ε σ α → EStateM.Result ε τ β → Prop
  | ok {a : α} {b : β} {s : σ} {t : τ} (hv : V a b) (hq : Q s t) : Alike Q V E (.ok a s) (.ok b t)
  | error {e f : ε} {s : σ} {t : τ} (he : E e f) : Alike Q V E (.error e s) (.error f t)

theorem Alike.mono {E : ε → ε → Prop} {Q Q' : σ → τ → Prop} {V : α → β → Prop}
    {r : EStateM.Result ε σ α} {r' : EStateM.Result ε τ β} (h : Alike Q V E r r')
    (hQ : ∀ s t, Q s t → Q' s t) : Alike Q' V E r r' := by
  cases h with
  | ok hv hq => exact .ok hv (hQ _ _ hq)
  | error he => exact .error he

def Relates (E : ε → ε → Prop) (P Q : σ → τ → Prop) (V : α → β → Prop) (x : EStateM ε σ α)
    (y : EStateM ε τ β) : Prop :=
  ∀ s t, P s t → Alike Q V E (x s) (y t)

def Done (_ _ : Unit) : Prop := True

namespace Relates

variable {E : ε → ε → Prop} {P Q R : σ → τ → Prop} {V : α → β → Prop} {W : γ → δ → Prop}

theorem mono {P' Q' : σ → τ → Prop} {x : EStateM ε σ α} {y : EStateM ε τ β}
    (h : Relates E P Q V x y) (hP : ∀ s t, P' s t → P s t) (hQ : ∀ s t, Q s t → Q' s t) :
    Relates E P' Q' V x y :=
  fun s t hp => (h s t (hP s t hp)).mono hQ

theorem pure {a : α} {b : β} (h : V a b) : Relates E P P V (pure a) (pure b) :=
  fun _ _ hp => .ok h hp

theorem throw {e f : ε} (h : E e f) : Relates E P Q V (throw e) (throw f) :=
  fun _ _ _ => .error h

theorem bind {x : EStateM ε σ α} {y : EStateM ε τ β} {f : α → EStateM ε σ γ} {g : β → EStateM ε τ δ}
    (hx : Relates E P Q V x y) (hf : ∀ a b, V a b → Relates E Q R W (f a) (g b)) :
    Relates E P R W (x >>= f) (y >>= g) := by
  intro s t hp
  show Alike R W E (EStateM.bind x f s) (EStateM.bind y g t)
  have h := hx s t hp
  simp only [EStateM.bind]
  revert h
  generalize x s = r
  generalize y t = r'
  rintro (⟨hv, hq⟩ | ⟨he⟩)
  · exact hf _ _ hv _ _ hq
  · exact .error he

theorem forM {xs : List ι} {f : ι → EStateM ε σ Unit} {g : ι → EStateM ε τ Unit}
    (hf : ∀ a ∈ xs, Relates E P P Done (f a) (g a)) :
    Relates E P P Done (xs.forM f) (xs.forM g) := by
  induction xs with
  | nil => exact pure trivial
  | cons a xs ih =>
    rw [List.forall_mem_cons] at hf
    exact hf.1.bind fun _ _ _ => ih hf.2

end Relates
end Sigil
