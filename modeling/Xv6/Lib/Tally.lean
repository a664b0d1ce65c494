import Mathlib.Algebra.BigOperators.Group.Finset.Piecewise

/- Sums over a finite family of parts of which one step changes a single part. -/
namespace Tally
variable {ι M : Type} [Fintype ι] [DecidableEq ι] [AddCommMonoid M]

theorem sum_change {f g : ι → M} (p : ι) (same : ∀ r, r ≠ p → g r = f r) :
    ∑ r, g r + f p = ∑ r, f r + g p := by
  have rest : ∑ r ∈ Finset.univ.erase p, g r = ∑ r ∈ Finset.univ.erase p, f r :=
    Finset.sum_congr rfl fun r mem => same r (Finset.ne_of_mem_erase mem)
  rw [← Finset.add_sum_erase Finset.univ g (Finset.mem_univ p),
    ← Finset.add_sum_erase Finset.univ f (Finset.mem_univ p), rest]
  rw [add_comm (g p), add_right_comm, add_comm (f p)]

end Tally
