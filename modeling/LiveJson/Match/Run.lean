import LiveJson.PathError

/-! Computations that report things on their way and may fail in the end. What was reported before a
failure stays reported. -/

namespace LiveJson

structure Run (ω α : Type) where
  reports : List ω
  outcome : Except PathError α

namespace Run

variable {ω α β : Type}

def report (w : ω) : Run ω Unit := { reports := [w], outcome := .ok () }

def ofExcept (outcome : Except PathError α) : Run ω α := { reports := [], outcome }

def bind (run : Run ω α) (next : α → Run ω β) : Run ω β :=
  match run.outcome with
  | .error e => { reports := run.reports, outcome := .error e }
  | .ok a =>
    let later := next a
    { reports := run.reports ++ later.reports, outcome := later.outcome }

instance : Monad (Run ω) where
  pure a := { reports := [], outcome := .ok a }
  bind := bind

@[simp] theorem outcome_pure (a : α) : (pure a : Run ω α).outcome = .ok a := rfl

@[simp] theorem outcome_bind (run : Run ω α) (next : α → Run ω β) :
    (run >>= next).outcome = run.outcome.bind fun a => (next a).outcome := by
  show (run.bind next).outcome = _
  unfold bind
  cases run.outcome <;> rfl

theorem bind_outcome_eq_ok {run : Run ω α} {next : α → Run ω β} {b : β} :
    (run >>= next).outcome = .ok b ↔ ∃ a, run.outcome = .ok a ∧ (next a).outcome = .ok b := by
  rw [outcome_bind]
  cases run.outcome with
  | error e => constructor <;> simp [Except.bind]
  | ok a => simp [Except.bind]

theorem bind_congr {run : Run ω α} {next next' : α → Run ω β}
    (h : ∀ a, run.outcome = .ok a → next a = next' a) : run >>= next = run >>= next' := by
  obtain ⟨reports, outcome⟩ := run
  cases outcome with
  | error e => rfl
  | ok a =>
    show Run.mk (reports ++ (next a).reports) (next a).outcome = _
    rw [h a rfl]
    rfl

theorem bind_pure (run : Run ω α) : run >>= pure = run := by
  obtain ⟨reports, outcome⟩ := run
  cases outcome with
  | error e => rfl
  | ok a => exact congrArg (Run.mk · _) (List.append_nil reports)

theorem bind_assoc {γ : Type} (run : Run ω α) (next : α → Run ω β) (last : β → Run ω γ) :
    run >>= next >>= last = run >>= fun a => next a >>= last := by
  obtain ⟨reports, outcome⟩ := run
  cases outcome with
  | error e => rfl
  | ok a =>
    show Run.bind ⟨reports ++ (next a).reports, (next a).outcome⟩ last =
      ⟨reports ++ ((next a).bind last).reports, ((next a).bind last).outcome⟩
    unfold Run.bind
    cases (next a).outcome with
    | error e => rfl
    | ok b => exact congrArg (Run.mk · _) (List.append_assoc ..)

end Run

end LiveJson
