import Mathlib.Logic.Function.Basic

/- Who holds which lock. A program says at each of its points which locks it holds there; the
   lock words agree with it when they name exactly the processes at such points. Acquire,
   release and any step between points of equal holdings keep the agreement. -/
namespace LockOwner
variable {Proc Point Lock : Type} {holds : Point → Lock → Prop}

def Owned (holds : Point → Lock → Prop) (owner : Lock → Option Proc) (at_ : Proc → Point) : Prop :=
  ∀ p l, holds (at_ p) l ↔ owner l = some p

variable {owner : Lock → Option Proc} {at_ : Proc → Point}
variable {p : Proc} {l : Lock}

theorem owned_exclusive (owned : Owned holds owner at_) {q : Proc}
    (first : holds (at_ p) l) (second : holds (at_ q) l) : p = q :=
  Option.some.inj (((owned p l).mp first).symm.trans ((owned q l).mp second))

theorem owned_free (owned : Owned holds owner at_) (free : owner l = none) (p : Proc) :
    ¬ holds (at_ p) l := by
  intro held
  rw [(owned p l).mp held] at free
  cases free

variable [DecidableEq Proc]

theorem owned_move (owned : Owned holds owner at_) {d : Point}
    (same : ∀ l, holds d l ↔ holds (at_ p) l) : Owned holds owner (Function.update at_ p d) := by
  intro q l
  by_cases mine : q = p
  · subst mine
    rw [Function.update_self, same]
    exact owned q l
  · rw [Function.update_of_ne mine]
    exact owned q l

variable [DecidableEq Lock]

theorem owned_acquire (owned : Owned holds owner at_) {d : Point}
    (free : owner l = none) (gain : ∀ m, holds d m ↔ m = l ∨ holds (at_ p) m) :
    Owned holds (Function.update owner l (some p)) (Function.update at_ p d) := by
  intro q m
  have before := owned q m
  by_cases mine : q = p <;> by_cases this : m = l
  · subst mine this
    simp [gain]
  · subst mine
    simpa [gain, this] using before
  · subst this
    simpa [mine, Ne.symm mine] using owned_free owned free q
  · simpa [mine, this] using before

theorem owned_release (owned : Owned holds owner at_) {d : Point}
    (held : holds (at_ p) l) (lose : ∀ m, holds d m ↔ m ≠ l ∧ holds (at_ p) m) :
    Owned holds (Function.update owner l none) (Function.update at_ p d) := by
  intro q m
  have before := owned q m
  by_cases mine : q = p <;> by_cases this : m = l
  · subst mine this
    simp [lose]
  · subst mine
    simpa [lose, this] using before
  · subst this
    have other : ¬ holds (at_ q) m := fun also => mine (owned_exclusive owned also held)
    simpa [mine] using other
  · simpa [mine, this] using before

end LockOwner
