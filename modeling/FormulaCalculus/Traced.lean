/-!
# Computations that report events

A traced computation ends with a value or a fault; the events that it reported before stay either
way. Forgetting the events keeps the sequence of the steps: `outcome_bind`.
-/

namespace FormulaCalculus

structure Traced (ε φ β : Type) where
  events : List ε
  outcome : Except φ β

namespace Traced

variable {ε φ β γ : Type}

instance : Monad (Traced ε φ) where
  pure x := ⟨[], .ok x⟩
  bind x f :=
    match x.outcome with
    | .ok y => ⟨x.events ++ (f y).events, (f y).outcome⟩
    | .error e => ⟨x.events, .error e⟩

def ofExcept (x : Except φ β) : Traced ε φ β :=
  ⟨[], x⟩

def report (event : ε) : Traced ε φ Unit :=
  ⟨[event], .ok ()⟩

@[simp] theorem outcome_pure (x : β) : (pure x : Traced ε φ β).outcome = .ok x :=
  rfl

@[simp] theorem outcome_ofExcept (x : Except φ β) : (ofExcept x : Traced ε φ β).outcome = x :=
  rfl

@[simp] theorem outcome_report (event : ε) : (report event : Traced ε φ Unit).outcome = .ok () :=
  rfl

@[simp] theorem outcome_bind (x : Traced ε φ β) (f : β → Traced ε φ γ) :
    (x >>= f).outcome = x.outcome >>= fun y => (f y).outcome := by
  obtain ⟨es, y | y⟩ := x <;> rfl

theorem exists_of_outcome_bind {x : Traced ε φ β} {f : β → Traced ε φ γ} {z : γ}
    (h : (x >>= f).outcome = .ok z) : ∃ y, x.outcome = .ok y ∧ (f y).outcome = .ok z := by
  rw [outcome_bind] at h
  cases hx : x.outcome with
  | error e => rw [hx] at h; cases h
  | ok y => rw [hx] at h; exact ⟨y, rfl, h⟩

end Traced

end FormulaCalculus
