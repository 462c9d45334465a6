import RecordArena.Traced

/-!
# Outcomes

Peeling one step off a computation that may fail. A traced computation has the outcome that its
steps have without their events.
-/

namespace RecordArena

variable {φ α β : Type}

@[simp] theorem ok_bind (a : α) (next : α → Except φ β) : (Except.ok a >>= next) = next a := rfl

@[simp] theorem error_bind (e : φ) (next : α → Except φ β) :
    (Except.error e >>= next) = Except.error e := rfl

@[simp] theorem ok_map (f : α → β) (a : α) :
    (f <$> (Except.ok a : Except φ α)) = Except.ok (f a) := rfl

@[simp] theorem error_map (f : α → β) (e : φ) :
    (f <$> (Except.error e : Except φ α)) = Except.error e := rfl

@[simp] theorem pure_eq_ok (a : α) : (pure a : Except φ α) = Except.ok a := rfl

/-- A sequence succeeds only when both of its steps do. -/
theorem bind_eq_ok {x : Except φ α} {next : α → Except φ β} {b : β}
    (h : (x >>= next) = Except.ok b) : ∃ a, x = Except.ok a ∧ next a = Except.ok b := by
  cases x with
  | error e => cases h
  | ok a => exact ⟨a, rfl, h⟩

theorem map_eq_ok {f : α → β} {x : Except φ α} {b : β} (h : f <$> x = Except.ok b) :
    ∃ a, x = Except.ok a ∧ f a = b := by
  cases x with
  | error e => cases h
  | ok a => exact ⟨a, rfl, Except.ok.inj h⟩

namespace Traced

@[simp] theorem outcome_pure (a : α) : (pure a : Traced α).outcome = Except.ok a := rfl

@[simp] theorem outcome_emit (event : Event) : (emit event).outcome = Except.ok () := rfl

@[simp] theorem outcome_fail (failure : Failure) :
    (fail failure : Traced α).outcome = Except.error failure := rfl

@[simp] theorem outcome_bind (x : Traced α) (next : α → Traced β) :
    (x >>= next).outcome = x.outcome >>= fun a => (next a).outcome := by
  obtain ⟨events, _ | a⟩ := x <;> rfl

@[simp] theorem outcome_map (f : α → β) (x : Traced α) :
    (f <$> x).outcome = f <$> x.outcome := by
  obtain ⟨events, _ | a⟩ := x <;> rfl

@[simp] theorem outcome_liftError (x : Except Error α) :
    (liftM x : Traced α).outcome = x.mapError .refused := rfl

@[simp] theorem outcome_liftFault (x : Except Fault α) :
    (liftM x : Traced α).outcome = x.mapError .faulted := rfl

@[simp] theorem outcome_liftFailure (x : Except Failure α) :
    (liftM x : Traced α).outcome = x := rfl

/-- A step that is answered without a fault reports nothing and can be left out. -/
theorem liftFault_ok_bind (a : α) (next : α → Traced β) :
    ((liftM (Except.ok a : Except Fault α) : Traced α) >>= next) = next a := rfl

theorem liftError_ok_bind (a : α) (next : α → Traced β) :
    ((liftM (Except.ok a : Except Error α) : Traced α) >>= next) = next a := rfl

end Traced

@[simp] theorem mapError_ok {ψ : Type} (f : φ → ψ) (a : α) :
    (Except.ok a : Except φ α).mapError f = Except.ok a := rfl

@[simp] theorem mapError_error {ψ : Type} (f : φ → ψ) (e : φ) :
    (Except.error e : Except φ α).mapError f = Except.error (f e) := rfl

/-- Where refusals and faults are told apart, an answer without a fault is an answer. -/
@[simp] theorem liftFault_ok (a : α) :
    (liftM (Except.ok a : Except Fault α) : Except Failure α) = Except.ok a := rfl

theorem mapError_eq_ok {ψ : Type} {f : φ → ψ} {x : Except φ α} {a : α}
    (h : x.mapError f = Except.ok a) : x = Except.ok a := by
  cases x with
  | error e => cases h
  | ok a' => cases h; rfl

namespace Traced

theorem outcome_bind_eq_ok {x : Traced α} {next : α → Traced β} {b : β}
    (h : (x >>= next).outcome = .ok b) :
    ∃ a, x.outcome = .ok a ∧ (next a).outcome = .ok b := by
  rw [outcome_bind] at h
  exact bind_eq_ok h

/-- An answered step reports before the steps that follow it. -/
theorem events_bind_of_ok {x : Traced α} {next : α → Traced β} {a : α}
    (h : x.outcome = .ok a) : (x >>= next).events = x.events ++ (next a).events := by
  obtain ⟨events, outcome⟩ := x
  cases h
  rfl

theorem outcome_liftError_eq_ok {x : Except Error α} {a : α}
    (h : (liftM x : Traced α).outcome = .ok a) : x = .ok a :=
  mapError_eq_ok h

theorem outcome_liftFault_eq_ok {x : Except Fault α} {a : α}
    (h : (liftM x : Traced α).outcome = .ok a) : x = .ok a :=
  mapError_eq_ok h

end Traced

end RecordArena
