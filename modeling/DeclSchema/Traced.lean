import DeclSchema.Fault

/-!
# Computations with events

A computation that reports events while it goes on and may end early with a fault. The events up to
the fault are kept, since they took place.

## Main definitions

* `Traced`: the events of a computation and its outcome
* `Traced.emit`, `Traced.fail`, `Traced.ofExcept`: the basic computations
-/

namespace DeclSchema

/-- What a computation reported, and how it ended. -/
structure Traced (ε α : Type) where
  events : List ε
  outcome : Except Fault α

namespace Traced

variable {ε α β γ : Type}

/-- Reports nothing and gives a value. -/
protected def pure (a : α) : Traced ε α :=
  ⟨[], .ok a⟩

/-- One computation after the other; a fault ends both. -/
protected def bind (x : Traced ε α) (f : α → Traced ε β) : Traced ε β :=
  match x.outcome with
  | .error e => ⟨x.events, .error e⟩
  | .ok a => ⟨x.events ++ (f a).events, (f a).outcome⟩

instance : Monad (Traced ε) where
  pure := Traced.pure
  bind := Traced.bind

def emit (e : ε) : Traced ε Unit :=
  ⟨[e], .ok ()⟩

def fail (f : Fault) : Traced ε α :=
  ⟨[], .error f⟩

/-- Reports nothing and ends as given. -/
def ofExcept (x : Except Fault α) : Traced ε α :=
  ⟨[], x⟩

theorem bind_ok {x : Traced ε α} {f : α → Traced ε β} {a : α} (h : x.outcome = .ok a) :
    x >>= f = ⟨x.events ++ (f a).events, (f a).outcome⟩ := by
  change Traced.bind x f = _
  simp [Traced.bind, h]

theorem bind_error {x : Traced ε α} {f : α → Traced ε β} {e : Fault} (h : x.outcome = .error e) :
    x >>= f = ⟨x.events, .error e⟩ := by
  change Traced.bind x f = _
  simp [Traced.bind, h]

theorem bind_pure_self (x : Traced ε α) : Traced.bind x Traced.pure = x := by
  cases x with
  | mk events outcome => cases outcome <;> simp [Traced.bind, Traced.pure]

theorem pure_bind_apply (a : α) (f : α → Traced ε β) : Traced.bind (Traced.pure a) f = f a := by
  simp [Traced.bind, Traced.pure]

theorem bind_bind (x : Traced ε α) (f : α → Traced ε β) (g : β → Traced ε γ) :
    Traced.bind (Traced.bind x f) g = Traced.bind x fun a => Traced.bind (f a) g := by
  cases x with
  | mk events outcome =>
    cases outcome with
    | error e => simp [Traced.bind]
    | ok a =>
      simp only [Traced.bind]
      cases (f a).outcome <;> simp

instance : LawfulMonad (Traced ε) :=
  LawfulMonad.mk' (Traced ε) bind_pure_self pure_bind_apply bind_bind

end Traced

end DeclSchema
