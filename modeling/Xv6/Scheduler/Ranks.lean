import Mathlib.Algebra.Order.Ring.Rat
import Xv6.Scheduler.Select

/- bjf with exact ranks. The search for the least rank starts from MIN_BJF_RANK, which a rank has
   to be below to be seen at all. -/
namespace SchedulerPass
open Param ProcTable RunningBest
variable {nproc : Nat} {s : Sched nproc Rat} {p q : Fin nproc}

/-- get_rank over exact numbers: nothing wraps around and nothing is rounded. -/
def exactRank (p : Proc Rat) : Rat :=
  p.priority.toInt * p.priorityRatio.toInt + p.enteredQueue.toInt * p.arrivalTimeRatio.toInt +
    p.executedCycle * p.executedCycleRatio.toInt

def bjfByFrom (rank : Proc Rat → Rat) (s : Sched nproc Rat) :
    Rat → Option (Fin nproc) → List (Fin nproc) → Option (Fin nproc)
  | _, minP, [] => minP
  | minRank, minP, p :: ps =>
    if (s.proc p).state ≠ .runnable ∨ (s.proc p).queue ≠ 3 then bjfByFrom rank s minRank minP ps
    else if rank (s.proc p) < minRank then bjfByFrom rank s (rank (s.proc p)) (some p) ps
    else bjfByFrom rank s minRank minP ps

def bjfBy (rank : Proc Rat → Rat) (s : Sched nproc Rat) : Option (Fin nproc) :=
  bjfByFrom rank s minBjfRank.toInt none (List.finRange nproc)

theorem bjfByFrom_eq_scan (rank : Proc Rat → Rat) (s : Sched nproc Rat) (bound : Rat)
    (minP : Option (Fin nproc)) (ps : List (Fin nproc)) :
    bjfByFrom rank s bound minP ps = scan (Waiting s 3) (fun p => rank (s.proc p))
      (fun x y => decide (x < y)) bound minP ps := by
  induction ps generalizing bound minP with
  | nil => rfl
  | cons p ps ih =>
    unfold bjfByFrom scan
    simp only [skipped_iff, ih, decide_eq_true_eq]
    by_cases waits : Waiting s 3 p
    · simp [waits]
    · simp [waits]

theorem bjf_eq_bjfBy (s : Sched nproc Rat) : bjf s = bjfBy getRank s := by
  unfold bjf bjfBy
  rw [bjfFrom_eq_scan, bjfByFrom_eq_scan]
  rfl

theorem slot_cut {us vs : List (Fin nproc)} (cut : List.finRange nproc = us ++ p :: vs) :
    (∀ q, q ∈ us ↔ q < p) ∧ ∀ q, q ∈ vs ↔ p < q := by
  have sorted := List.pairwise_lt_finRange nproc
  rw [cut, List.pairwise_append, List.pairwise_cons] at sorted
  obtain ⟨-,⟨behind,-⟩,before⟩ := sorted
  have all : ∀ q, q ∈ us ∨ q = p ∨ q ∈ vs := fun q => by
    have mem := List.mem_finRange q
    rwa [cut, List.mem_append, List.mem_cons] at mem
  refine ⟨fun q => ⟨fun mem => before q mem p List.mem_cons_self, fun lower => ?_⟩,
    fun q => ⟨behind q, fun higher => ?_⟩⟩
  · rcases all q with mem | same | mem
    · exact mem
    · exact absurd lower (same ▸ lt_irrefl q)
    · exact absurd lower (lt_asymm (behind q mem))
  · rcases all q with mem | same | mem
    · exact absurd higher (lt_asymm (before q mem p List.mem_cons_self))
    · exact absurd higher (same ▸ lt_irrefl q)
    · exact mem

/-- The least rank of queue 3, the lowest slot on ties; nobody only when nobody waits. -/
def Best (rank : Proc Rat → Rat) (s : Sched nproc Rat) : Option (Fin nproc) → Prop
  | none => ∀ p, ¬ Waiting s 3 p
  | some p => Waiting s 3 p ∧ (∀ q, Waiting s 3 q → rank (s.proc p) ≤ rank (s.proc q)) ∧
      ∀ q, Waiting s 3 q → q < p → rank (s.proc p) < rank (s.proc q)

theorem bjfBy_eq_none_iff (rank : Proc Rat → Rat) (s : Sched nproc Rat) :
    bjfBy rank s = none ↔ ∀ p, Waiting s 3 p → ¬ rank (s.proc p) < minBjfRank.toInt := by
  unfold bjfBy
  rw [bjfByFrom_eq_scan, scan_eq_none_iff]
  simp

theorem bjfBy_best {rank : Proc Rat → Rat} (picked : bjfBy rank s = some p) :
    Best rank s (some p) := by
  unfold bjfBy at picked
  rw [bjfByFrom_eq_scan] at picked
  have trans : ∀ a b c : Rat, decide (a < b) = true → decide (b < c) = true →
      decide (a < c) = true := fun a b c first second => by
    rw [decide_eq_true_eq] at first second ⊢
    exact lt_trans first second
  have steady : ∀ a b c : Rat, ¬ decide (a < b) = true → decide (c < b) = true →
      decide (c < a) = true := fun a b c first second => by
    rw [decide_eq_true_eq] at first second ⊢
    exact lt_of_lt_of_le second (not_lt.mp first)
  rcases scan_splits trans steady picked with ⟨none,-⟩ | ⟨us,vs,cut,waits,-,before,after⟩
  · cases none
  · obtain ⟨lower,higher⟩ := slot_cut cut
    simp only [decide_eq_true_eq] at before after
    refine ⟨waits, fun q waits' => ?_, fun q waits' less => before q ((lower q).mpr less) waits'⟩
    rcases lt_trichotomy q p with less | same | more
    · exact le_of_lt (before q ((lower q).mpr less) waits')
    · rw [same]
    · exact not_lt.mp (after q ((higher q).mpr more) waits')

theorem bjfBy_best_iff (rank : Proc Rat → Rat) (s : Sched nproc Rat) :
    Best rank s (bjfBy rank s) ↔ (∀ p, ¬ Waiting s 3 p) ∨ ∃ p, Waiting s 3 p ∧
      rank (s.proc p) < minBjfRank.toInt := by
  constructor
  · intro best
    cases picked : bjfBy rank s with
    | none =>
      rw [picked] at best
      exact .inl best
    | some p =>
      by_contra neither
      rw [not_or, not_exists] at neither
      have none := (bjfBy_eq_none_iff rank s).mpr fun q waits low => neither.2 q ⟨waits, low⟩
      rw [picked] at none
      cases none
  · intro seen
    cases picked : bjfBy rank s with
    | none =>
      rcases seen with nobody | ⟨p,waits,low⟩
      · exact nobody
      · exact absurd low ((bjfBy_eq_none_iff rank s).mp picked p waits)
    | some p => exact bjfBy_best picked

/-- The law with exact ranks, and with the products of get_rank taken in `int`. -/
theorem bjf_picks_best_iff (s : Sched nproc Rat) :
    (Best exactRank s (bjfBy exactRank s) ↔
      (∀ p, ¬ Waiting s 3 p) ∨ ∃ p, Waiting s 3 p ∧ exactRank (s.proc p) < minBjfRank.toInt) ∧
    (Best getRank s (bjf s) ↔ (∀ p, ¬ Waiting s 3 p) ∨ ∃ p, Waiting s 3 p ∧
      getRank (s.proc p) < minBjfRank.toInt) := by
  refine ⟨bjfBy_best_iff exactRank s, ?_⟩
  rw [bjf_eq_bjfBy]
  exact bjfBy_best_iff getRank s

def lateJob : Sched 1 Rat where
  proc _ := ⟨.runnable, 1, 0, 3, 1000000, 1, 1, 1, 1, 0, 1⟩
  ticks := 1000001
  nextpid := 2

theorem late_job_not_seen : ¬ Best exactRank lateJob (bjfBy exactRank lateJob) := by
  have nothing : bjfBy exactRank lateJob = none := by decide +kernel
  rw [nothing]
  exact fun nobody => nobody ⟨0, by decide⟩ (by decide)

end SchedulerPass
