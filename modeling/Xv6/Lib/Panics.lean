import Mathlib.Control.Basic

/- Programs that work on a state and may stop for good: `StateT` over `Except`. A run is taken
   apart step by step, whether it comes to its end or stops. -/
namespace Panics
variable {σ ε α β : Type}

theorem bind_apply (m : StateT σ (Except ε) α) (f : α → StateT σ (Except ε) β) (s : σ) :
    (m >>= f) s = (m s).bind fun r => f r.1 r.2 := rfl

variable {m : StateT σ (Except ε) α} {f : α → StateT σ (Except ε) β} {s : σ}

theorem bind_ok {r : β × σ}
    (run : (m >>= f) s = .ok r) : ∃ a t, m s = .ok (a, t) ∧ f a t = .ok r := by
  rw [bind_apply] at run
  cases first : m s with
  | error e =>
    rw [first] at run
    cases run
  | ok step =>
    rw [first] at run
    exact ⟨step.1, step.2, rfl, run⟩

theorem bind_of_ok {t : σ} {a : α} (first : m s = .ok (a, t)) :
    (m >>= f) s = f a t := by
  rw [bind_apply, first]
  rfl

theorem bind_of_error {e : ε} (first : m s = .error e) :
    (m >>= f) s = .error e := by
  rw [bind_apply, first]
  rfl

theorem bind_error {e : ε}
    (run : (m >>= f) s = .error e) :
    m s = .error e ∨ ∃ a t, m s = .ok (a, t) ∧ f a t = .error e := by
  rw [bind_apply] at run
  cases first : m s with
  | error e' =>
    rw [first] at run
    cases run
    exact .inl rfl
  | ok step =>
    rw [first] at run
    exact .inr ⟨step.1, step.2, rfl, run⟩

end Panics
