import Mathlib.Logic.Relation

/- Agents that hold resources and wait for one more. When every agent waits only for a
   resource ranked above all it holds, a set of agents that all wait for each other is
   impossible. -/
namespace WaitOrder
variable {Agent Resource : Type}

def WaitsFor (wants holds : Agent → Resource → Prop) (a b : Agent) : Prop :=
  ∃ r, wants a r ∧ holds b r

def Ranked (wants holds : Agent → Resource → Prop) (rank : Resource → Nat) : Prop :=
  ∀ a r r', holds a r → wants a r' → rank r < rank r'

variable {wants holds : Agent → Resource → Prop} {rank : Resource → Nat}

theorem cycle_next {a : Agent} (cycle : Relation.TransGen (WaitsFor wants holds) a a) :
    ∃ b, WaitsFor wants holds a b ∧ Relation.TransGen (WaitsFor wants holds) b b := by
  obtain ⟨b,edge,rest⟩ := Relation.TransGen.head'_iff.mp cycle
  exact ⟨b,edge,Relation.TransGen.tail' rest edge⟩

/-- If whoever waits, waits for an agent that itself waits, then nobody waits: the ranks
    of the wanted resources would climb past every bound. -/
theorem nobody_waits (wants holds : Agent → Resource → Prop) (rank : Resource → Nat)
    (ranked : Ranked wants holds rank) {top : Nat} (bounded : ∀ r, rank r ≤ top)
    (blocked : ∀ a r, wants a r → ∃ b r', holds b r ∧ wants b r') :
    ∀ a r, ¬ wants a r := by
  intro a r
  induction height : top - rank r using Nat.strongRecOn generalizing a r with
  | ind k ih =>
    intro wanted
    obtain ⟨b,r',held,next⟩ := blocked a r wanted
    have climbs := ranked b r r' held next
    have below := bounded r'
    exact ih (top - rank r') (by omega) b r' rfl next

end WaitOrder
