import Mathlib.Control.Basic
import Xv6.Lib.Panics

/- Two properties of programs that may stop: every run that comes to its end changes a measure
   by an amount that its result tells, and relates its first state to its last one. -/
namespace Balance
open Panics
variable {σ ε α β : Type} {μ : σ → Int} {m : StateT σ (Except ε) α} {f : α → StateT σ (Except ε) β}

def Shifts (μ : σ → Int) (m : StateT σ (Except ε) α) (by_ : α → Int) : Prop :=
  ∀ s a t, m s = .ok (a, t) → μ t = μ s + by_ a

theorem shifts_pure {a : α} {by_ : α → Int} (zero : by_ a = 0) :
    Shifts μ (pure a : StateT σ (Except ε) α) by_ := by
  intro s b t run
  cases run
  rw [zero, Int.add_zero]

theorem shifts_bind {first : α → Int} {total : β → Int} (head : Shifts μ m first)
    (rest : ∀ a, Shifts μ (f a) fun b => total b - first a) : Shifts μ (m >>= f) total := by
  intro s b t run
  obtain ⟨a,u,one,two⟩ := bind_ok run
  have last : μ t = μ u + (total b - first a) := rest a u b t two
  rw [last, head s a u one]
  omega

theorem shifts_after {total : β → Int} (head : Shifts μ m fun _ => 0)
    (rest : ∀ a, Shifts μ (f a) total) : Shifts μ (m >>= f) total :=
  shifts_bind head fun a => by simpa using rest a

def Relates (R : σ → σ → Prop) (m : StateT σ (Except ε) α) : Prop :=
  ∀ s a t, m s = .ok (a, t) → R s t

theorem relates_pure {R : σ → σ → Prop} (refl : ∀ s, R s s) {a : α} :
    Relates R (pure a : StateT σ (Except ε) α) := by
  intro s b t run
  cases run
  exact refl s

theorem relates_bind {R : σ → σ → Prop} (trans : ∀ s t u, R s t → R t u → R s u)
    (head : Relates R m)
    (rest : ∀ a, Relates R (f a)) : Relates R (m >>= f) := by
  intro s b t run
  obtain ⟨a,u,one,two⟩ := bind_ok run
  exact trans s u t (head s a u one) (rest a u b t two)

end Balance
