import RecordArena.InPlace.Basic
import RecordArena.Proofs.Outcome

/-!
# Changes that perform an operation

A change in place performs an operation when it reports the same events, has the same outcome, and
leaves the state that the operation answers. The rules of this module follow the steps of a change:
a reader of a change in place sees the operation next to it.

Nothing is said of the state that is left by a failure. A change is all or nothing when a refusal
leaves the state that there was before.

## Main definitions

* `InPlace.Performs` – a change in place does what an operation says.
* `InPlace.AllOrNothing` – besides, it leaves the old state when it is refused.
* `InPlace.Answered`, `InPlace.Faulted` – it is answered, or it meets a fault and changes nothing.
-/

namespace RecordArena

theorem Traced.map_answer {α β : Type} (f : α → β) (events : List Event) (a : α) :
    f <$> (⟨events, .ok a⟩ : Traced α) = ⟨events, .ok (f a)⟩ :=
  congrArg (Traced.mk · (.ok (f a))) (List.append_nil events)

namespace InPlace

variable {σ τ α β : Type} {s : σ}

/-- From the state `s`, the change has the events and the outcome of the operation `x`, and leaves
the state that `x` answers. -/
structure Performs (change : InPlace σ α) (x : Traced (α × σ)) (s : σ) : Prop where
  traced : (change s).1 = Prod.fst <$> x
  stored : ∀ a s', x.outcome = .ok (a, s') → (change s).2 = s'

/-- The change performs the operation `x`, and a refused one leaves the state `s` as it is. -/
structure AllOrNothing (change : InPlace σ α) (x : Traced (α × σ)) (s : σ) : Prop
    extends Performs change x s where
  kept : ∀ e, x.outcome = .error (.refused e) → (change s).2 = s

/-- The change is answered, as the operation `x` is, and leaves what `x` answers. -/
def Answered (change : InPlace σ α) (x : Traced (α × σ)) (s : σ) : Prop :=
  Performs change x s ∧ ∃ a s', x.outcome = .ok (a, s')

/-- The change meets a fault, as the operation `x` does, and leaves the state `s` as it is. -/
def Faulted (change : InPlace σ α) (x : Traced (α × σ)) (fault : Fault) (s : σ) : Prop :=
  x = Traced.fail (.faulted fault) ∧ change s = (Traced.fail (.faulted fault), s)

theorem look_bind (next : σ → InPlace σ β) (s : σ) : (look >>= next) s = next s s := rfl

theorem liftError_ok_bind (a : α) (next : α → InPlace σ β) (s : σ) :
    ((liftM (Except.ok a : Except Error α) : InPlace σ α) >>= next) s = next a s := rfl

/-- What a change leaves is where the next one starts, or what is left when there is none. -/
theorem bind_run (change : InPlace σ α) (next : α → InPlace σ β) (s : σ) :
    (change >>= next) s =
      match (change s).1.outcome with
      | .error failure => (⟨(change s).1.events, .error failure⟩, (change s).2)
      | .ok a =>
        (⟨(change s).1.events ++ (next a (change s).2).1.events,
          (next a (change s).2).1.outcome⟩, (next a (change s).2).2) := by
  change andThen change next s = _
  unfold andThen
  obtain ⟨⟨events, failure | a⟩, s'⟩ := change s
  · rfl
  · rfl

namespace Performs

theorem pure (a : α) (s : σ) : Performs (pure a) (Pure.pure (a, s)) s where
  traced := rfl
  stored _ _ h := by cases h; rfl

theorem alter (change : σ → σ) (s : σ) :
    Performs (InPlace.alter change) (Pure.pure ((), change s)) s where
  traced := rfl
  stored _ _ h := by cases h; rfl

/-- Nothing is said of the state that a failure leaves. -/
theorem of_error {change : InPlace σ α} {x : Traced (α × σ)} {failure : Failure}
    (htraced : (change s).1 = Prod.fst <$> x) (h : x.outcome = .error failure) :
    Performs change x s where
  traced := htraced
  stored a s' hok := by
    rw [h] at hok
    cases hok

/-- Reading the state is a step that only names it. -/
theorem look_bind {next : σ → InPlace σ β} {x : Traced (β × σ)} (h : Performs (next s) x s) :
    Performs (look >>= next) x s :=
  ⟨h.traced, h.stored⟩

theorem alter_bind {change : σ → σ} {next : Unit → InPlace σ β} {x : Traced (β × σ)}
    (h : Performs (next ()) x (change s)) : Performs (InPlace.alter change >>= next) x s :=
  ⟨h.traced, h.stored⟩

/-- A computation of its own, and what follows when it is answered. -/
theorem lift_bind (x : Traced α) {next : α → InPlace σ β} {rest : α → Traced (β × σ)}
    (h : ∀ a, x.outcome = .ok a → Performs (next a) (rest a) s) :
    Performs ((liftM x : InPlace σ α) >>= next) (x >>= rest) s := by
  obtain ⟨events, failure | a⟩ := x
  · exact .of_error rfl rfl
  · obtain ⟨htraced, hstored⟩ := h a rfl
    refine ⟨?_, hstored⟩
    change (⟨events ++ (next a s).1.events, (next a s).1.outcome⟩ : Traced β) = _
    rw [htraced, map_bind]
    rfl

theorem liftFault_bind {γ : Type} (x : Except Fault α) {next : α → InPlace σ β}
    {rest : α → Except Fault γ} {answer : γ → β × σ}
    (h : ∀ a, x = .ok a → Performs (next a) (answer <$> liftM (rest a)) s) :
    Performs ((liftM x : InPlace σ α) >>= next) (answer <$> liftM (x >>= rest)) s := by
  cases x with
  | error fault => exact .of_error rfl rfl
  | ok a => exact ⟨(h a rfl).traced, (h a rfl).stored⟩

theorem bind {change : InPlace σ α} {x : Traced (α × σ)} {next : α → InPlace σ β}
    {rest : α × σ → Traced (β × σ)} (h : Performs change x s)
    (hrest : ∀ a s', x.outcome = .ok (a, s') → Performs (next a) (rest (a, s')) s') :
    Performs (change >>= next) (x >>= rest) s := by
  obtain ⟨htraced, hstored⟩ := h
  obtain ⟨events, failure | ⟨a, s'⟩⟩ := x
  · refine .of_error ?_ rfl
    rw [bind_run, htraced]
    rfl
  · obtain ⟨hnext, hleft⟩ := hrest a s' rfl
    have hs' : (change s).2 = s' := hstored a s' rfl
    rw [Traced.map_answer] at htraced
    constructor
    · rw [bind_run, htraced, hs', map_bind]
      change (⟨events ++ (next a s').1.events, (next a s').1.outcome⟩ : Traced β) = _
      rw [hnext]
      rfl
    · intro b s'' hx
      rw [bind_run, htraced, hs']
      exact hleft b s'' hx

/-- A change of a part of the state. -/
theorem within {part : σ → τ} {replace : τ → σ → σ} {change : InPlace τ α} {x : Traced (α × τ)}
    (h : Performs change x (part s)) :
    Performs (InPlace.within part replace change) (Prod.map id (replace · s) <$> x) s where
  traced := by
    rw [Functor.map_map]
    exact h.traced
  stored a s' hx := by
    rw [Traced.outcome_map] at hx
    obtain ⟨⟨a', t⟩, hok, heq⟩ := map_eq_ok hx
    cases heq
    exact congrArg (replace · s) (h.stored a' t hok)

/-- A change of a part of the state that answers nothing. -/
theorem within_part {part : σ → τ} {replace : τ → σ → σ} {change : InPlace τ Unit}
    {x : Traced τ} (h : Performs change (Prod.mk () <$> x) (part s)) :
    Performs (InPlace.within part replace change)
      (Prod.mk () <$> (x >>= fun t => Pure.pure (replace t s))) s := by
  have heq : Prod.map id (replace · s) <$> Prod.mk () <$> x =
      Prod.mk () <$> (x >>= fun t => Pure.pure (replace t s)) := by
    rw [bind_pure_comp, Functor.map_map, Functor.map_map]
    rfl
  rw [← heq]
  exact h.within

/-- A change of a part of the state, and then an answer. -/
theorem within_answer {part : σ → τ} {replace : τ → σ → σ} {change : InPlace τ Unit}
    {x : Traced τ} (h : Performs change (Prod.mk () <$> x) (part s)) (b : β) :
    Performs (InPlace.within part replace change >>= fun _ => Pure.pure b)
      (x >>= fun t => Pure.pure (b, replace t s)) s := by
  have heq : (Prod.mk () <$> (x >>= fun t => Pure.pure (replace t s))) >>=
      (fun a => Pure.pure (b, a.2)) = x >>= fun t => Pure.pure (b, replace t s) := by
    rw [bind_map_left, bind_assoc]
    simp only [pure_bind]
  rw [← heq]
  exact .bind h.within_part fun _ s' _ => .pure b s'

end Performs

/-- A change that is refused or stored at once: it leaves what is answered, or the old state. -/
theorem allOrNothing_iff {change : InPlace σ Unit} {x : Except Error σ} :
    AllOrNothing change (Prod.mk () <$> liftM x) s ↔
      change s = match x with
        | .ok s' => (pure (), s')
        | .error e => (Traced.fail (.refused e), s) := by
  cases x with
  | error e =>
    constructor
    · exact fun h => Prod.ext h.traced (h.kept e rfl)
    · intro h
      exact ⟨.of_error (congrArg Prod.fst h) rfl, fun _ _ => congrArg Prod.snd h⟩
  | ok s' =>
    constructor
    · exact fun h => Prod.ext h.traced (h.stored () s' rfl)
    · intro h
      refine ⟨⟨congrArg Prod.fst h, fun _ _ hs => ?_⟩, fun _ h => nomatch h⟩
      cases hs
      exact congrArg Prod.snd h

end InPlace

end RecordArena
