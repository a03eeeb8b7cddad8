import Sigil.Command

/-!
Sessions read line by line: the lines of a session can be answered one at a time, as they come, and a session
ends with a success or a failure to read.
-/
namespace Sigil

namespace Job

variable {α β γ : Type}

theorem bind_done (job : Job α) : job.bind done = job := by
  induction job with
  | done a => rfl
  | running code m next ih => exact congrArg (running code m) (funext ih)

theorem bind_assoc (job : Job α) (f : α → Job β) (g : β → Job γ) :
    (job.bind f).bind g = job.bind fun a => (f a).bind g := by
  induction job with
  | done a => rfl
  | running code m next ih => exact congrArg (running code m) (funext ih)

def Yields (P : α → Prop) : Job α → Prop
  | done a => P a
  | running _ _ next => ∀ r, (next r).Yields P

theorem Yields.bind {P : α → Prop} {Q : β → Prop} {job : Job α} {f : α → Job β} (h : job.Yields P)
    (hf : ∀ a, P a → (f a).Yields Q) : (job.bind f).Yields Q := by
  induction job with
  | done a => exact hf a h
  | running code m next ih => exact fun r => ih r (h r)

theorem Yields.of_forall {P : α → Prop} (hP : ∀ a, P a) (job : Job α) : job.Yields P := by
  induction job with
  | done a => exact hP a
  | running code m next ih => exact ih

end Job

namespace Repl

variable {config : Config}

theorem Answer.silent_andThen (next : Job Answer) : Answer.silent.andThen next = next := by
  simp only [silent, andThen, Job.map, String.empty_append]
  exact next.bind_done

theorem Answer.andThen_assoc (a : Answer) (next last : Job Answer) :
    (a.andThen next).bind (·.andThen last) = a.andThen (next.bind (·.andThen last)) := by
  obtain ⟨stdout, stderr, exit?⟩ := a
  cases exit? with
  | some exit => rfl
  | none =>
    simp only [andThen, Job.map, Job.bind_assoc, Job.bind]
    congr 1
    funext b
    obtain ⟨stdout', stderr', exit?⟩ := b
    cases exit? with
    | some exit => rfl
    | none => simp only [Job.bind_assoc, Job.bind, String.append_assoc]

/-- What is answered to the lines that have come so far does not depend on those to come. -/
theorem dialogue_append (lines more : List ByteArray) :
    dialogue config (lines ++ more) =
      (dialogue config lines).bind (·.andThen (dialogue config more)) := by
  induction lines with
  | nil => exact (Answer.silent_andThen _).symm
  | cons line lines ih =>
    simp only [List.cons_append, dialogue, ih, Job.bind_assoc, Answer.andThen_assoc]

/-- No failure of a program ends the session. -/
theorem answer_yields (line : ByteArray) :
    (answer config line).Yields fun a => a.exit? = none ∨ a.exit? = some 0 ∨ a.exit? = some 1 := by
  have hevaluated : ∀ source, (evaluate config source).Yields fun _ => True :=
    fun source => .of_forall (fun _ => trivial) _
  unfold answer
  split
  · exact .inr (.inl rfl)
  cases Command.decodeText line with
  | error failure => exact .inr (.inr rfl)
  | ok text =>
    dsimp only
    split
    · exact .inl rfl
    · refine (hevaluated _).bind fun r _ => ?_
      cases r <;> exact .inl rfl

theorem dialogue_yields (lines : List ByteArray) :
    (dialogue config (lines ++ [.empty])).Yields fun a => a.exit? = some 0 ∨ a.exit? = some 1 := by
  induction lines with
  | nil => exact .inl rfl
  | cons line lines ih =>
    refine Job.Yields.bind (answer_yields line) fun a ha => ?_
    obtain ⟨stdout, stderr, exit?⟩ := a
    cases exit? with
    | some exit => exact ha.resolve_left nofun
    | none => exact ih.bind fun b hb => hb

/-- A session ends with a success or with a failure to read, whatever its programs do. -/
theorem session_yields (input : ByteArray) :
    (session config input).Yields fun r => r.exit = 0 ∨ r.exit = 1 := by
  refine (dialogue_yields _).bind fun a ha => ?_
  obtain ha | ha := ha
  · exact .inl (by simp only [ha, Option.getD_some])
  · exact .inr (by simp only [ha, Option.getD_some])

end Repl
end Sigil
