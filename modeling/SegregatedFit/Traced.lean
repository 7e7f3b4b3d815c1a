import SegregatedFit.Event
import SegregatedFit.Word.Basic

/-
  Computations that report events and may end in a fault.

  The events reported before a fault stay reported:
  `Traced.bind_of_error`.
-/

namespace SegregatedFit

/- The events of a computation, in order, and how it ended. -/
structure Traced (α : Type) where
  events : List Event
  outcome : Except Fault α

namespace Traced

variable {α β : Type}

/- A computation without events. -/
def ofExcept
    (outcome : Except Fault α) : Traced α where
  events := []
  outcome := outcome

/- Run a computation and then another on its result. -/
def andThen
    (x : Traced α)
    (f : α → Traced β) : Traced β :=
  match x.outcome with
  | .error fault =>
      { events := x.events, outcome := .error fault }
  | .ok a =>
      let y := f a
      { events := x.events ++ y.events,
        outcome := y.outcome }

instance : Monad Traced where
  pure a := ofExcept (.ok a)
  bind := andThen

instance : MonadLift (Except Fault) Traced where
  monadLift := ofExcept

/-
  Traced computations obey the laws of sequences: a result
  alone adds no events, and the order of grouping does not
  matter.
-/
instance : LawfulMonad Traced :=
  LawfulMonad.mk' Traced
    (by
      intro α x
      rcases x with ⟨events, fault | a⟩
      · rfl
      · change Traced.mk (events ++ []) (.ok a) = _
        rw [List.append_nil])
    (by
      intro α β a f
      change Traced.mk ([] ++ (f a).events) (f a).outcome = f a
      rw [List.nil_append])
    (by
      intro α β γ x f g
      rcases x with ⟨events, fault | a⟩
      · rfl
      · change (andThen ⟨events, .ok a⟩ f).andThen g =
          andThen ⟨events, .ok a⟩ (fun a => (f a).andThen g)
        unfold andThen
        dsimp only
        cases (f a).outcome with
        | error fault => rfl
        | ok b =>
            dsimp only
            rw [List.append_assoc])

/- Report one event. -/
def report
    (event : Event) : Traced Unit where
  events := [event]
  outcome := .ok ()

/- The events of a computation whose first part succeeds. -/
theorem events_bind_of_ok
    {x : Traced α}
    {f : α → Traced β}
    {a : α}
    (h : x.outcome = .ok a) :
    (x >>= f).events = x.events ++ (f a).events := by
  change (x.andThen f).events = _
  unfold andThen
  rw [h]

/- The outcome of a computation whose first part succeeds. -/
theorem outcome_bind_of_ok
    {x : Traced α}
    {f : α → Traced β}
    {a : α}
    (h : x.outcome = .ok a) :
    (x >>= f).outcome = (f a).outcome := by
  change (x.andThen f).outcome = _
  unfold andThen
  rw [h]

/- A computation succeeds exactly when both of its parts do. -/
theorem outcome_bind_eq_ok_iff
    {x : Traced α}
    {f : α → Traced β}
    {b : β} :
    (x >>= f).outcome = .ok b ↔
      ∃ a, x.outcome = .ok a ∧ (f a).outcome = .ok b := by
  cases hOutcome : x.outcome with
  | error fault =>
      change (x.andThen f).outcome = .ok b ↔ _
      unfold andThen
      rw [hOutcome]
      simp
  | ok a =>
      rw [outcome_bind_of_ok hOutcome]
      simp

/- A computation without events goes on with its result. -/
theorem lift_bind_of_ok
    {x : Except Fault α}
    {a : α}
    (f : α → Traced β)
    (h : x = .ok a) :
    (liftM x : Traced α) >>= f = f a := by
  subst h
  exact pure_bind a f

/- A second part that reports nothing only turns the result. -/
theorem bind_of_silent
    {x : Traced α}
    {f : α → Traced β}
    {a : α}
    {b : β}
    (h : x.outcome = .ok a)
    (hNext : f a = pure b) :
    x >>= f = { events := x.events, outcome := .ok b } := by
  change x.andThen f = _
  unfold andThen
  rw [h]
  dsimp only
  rw [hNext]
  change Traced.mk (x.events ++ []) (.ok b) = _
  rw [List.append_nil]

/- A computation whose first part is known goes on from there. -/
theorem bind_of_eq
    {x : Traced α}
    {events : List Event}
    {a : α}
    (f : α → Traced β)
    (h : x = { events := events, outcome := .ok a }) :
    x >>= f = {
      events := events ++ (f a).events,
      outcome := (f a).outcome } := by
  subst h
  rfl

/- A report is the first event of what follows. -/
theorem report_bind
    (event : Event)
    (f : Unit → Traced β) :
    report event >>= f = {
      events := event :: (f ()).events,
      outcome := (f ()).outcome } :=
  rfl

/- After a fault nothing more is reported. -/
theorem bind_of_error
    {x : Traced α}
    {f : α → Traced β}
    {fault : Fault}
    (h : x.outcome = .error fault) :
    x >>= f =
      { events := x.events, outcome := .error fault } := by
  change x.andThen f = _
  unfold andThen
  rw [h]

end Traced

end SegregatedFit
