import Mathlib.Algebra.Order.BigOperators.Group.Finset
import Xv6.Semaphore.Queue

/- How many processes are between sem_acquire and sem_release. sem_acquire sleeps under
   `if`, so a process that arrives between a wakeup and the moment the woken process runs
   can take the unit meant for it; the woken process then decrements all the same. -/
namespace SemaphoreHolders
open RunLaws KernelSemaphore SemaphoreSystem SemaphoreAccounts SemaphoreQueue
variable {nproc nsem : Nat}

/-- The number of processes whose `sem_acquire(i)` returned and that have not called the
    matching `sem_release(i)`. -/
def inside (b : Books nproc nsem) (i : Fin nsem) : Nat :=
  (Finset.univ.filter fun p => 0 < b.held p i).card

/-- A process releases only what its own `sem_acquire` returned with. -/
def Matched (s : Sys nproc nsem) : Event nproc nsem → Prop
  | .semRelease p i => 0 < s.books.held p i
  | _ => True

instance (s : Sys nproc nsem) : ∀ e, Decidable (Matched s e)
  | .semRelease p i => inferInstanceAs (Decidable (0 < s.books.held p i))
  | .semAcquire _ _ | .resume _ | .kill _ | .exit _ | .wait _ | .fork => isTrue trivial

/-- A `sem_acquire(i)` that finds the value positive finds a unit to spare beyond those of
    the processes that were woken and have not resumed. -/
def NoOvertaking (i : Fin nsem) (s : Sys nproc nsem) : Event nproc nsem → Prop
  | .semAcquire _ j => j = i → 0 < (s.kernel.semtable i).value →
    (transit s.kernel i : Int) < (s.kernel.semtable i).value
  | _ => True

instance (i : Fin nsem) (s : Sys nproc nsem) : ∀ e, Decidable (NoOvertaking i s e)
  | .semAcquire _ j => inferInstanceAs (Decidable (j = i → 0 < (s.kernel.semtable i).value →
      (transit s.kernel i : Int) < (s.kernel.semtable i).value))
  | .resume _ | .semRelease _ _ | .kill _ | .exit _ | .wait _ | .fork => isTrue trivial

/-- A process has released what it acquired before it exits. -/
def ReturnsUnits (s : Sys nproc nsem) : Event nproc nsem → Prop
  | .exit p => ∀ i, s.books.held p i = 0
  | _ => True

instance (s : Sys nproc nsem) : ∀ e, Decidable (ReturnsUnits s e)
  | .exit p => inferInstanceAs (Decidable (∀ i, s.books.held p i = 0))
  | .semAcquire _ _ | .resume _ | .semRelease _ _ | .kill _ | .wait _ | .fork => isTrue trivial

variable {s t : Sys nproc nsem} {e : Event nproc nsem}

theorem returns_of_call (call : SemCall e) : ReturnsUnits s e := by
  cases e with
  | exit p => exact absurd call (by simp [SemCall])
  | _ => trivial

theorem transit_start (v : Fin nsem → Int) (i : Fin nsem) :
    transit (start v : Sys nproc nsem).kernel i = 0 := by
  unfold transit
  rw [Finset.card_eq_zero, Finset.filter_eq_empty_iff]
  intro p _ moving
  cases moving.1

theorem transit_le_nproc (k : Kernel nproc nsem) (i : Fin nsem) : transit k i ≤ nproc := by
  have small := Finset.card_filter_le Finset.univ (InTransit k i)
  simpa [transit] using small

theorem transit_pos {k : Kernel nproc nsem} {p : Fin nproc} {i : Fin nsem}
    (moving : InTransit k i p) : 0 < transit k i :=
  Finset.card_pos.mpr ⟨p,by simpa using moving⟩

theorem inside_le_units (b : Books nproc nsem) (i : Fin nsem) : inside b i ≤ b.units i := by
  unfold inside Books.units
  rw [Finset.card_filter]
  apply Finset.sum_le_sum
  intro p _
  split <;> omega

theorem held_le_units (b : Books nproc nsem) (p : Fin nproc) (i : Fin nsem) :
    b.held p i ≤ b.units i :=
  Finset.single_le_sum (f := fun p => b.held p i) (fun _ _ => Nat.zero_le _) (Finset.mem_univ p)

variable [NeZero nproc]

theorem step_effect (h : Orderly s)
    (spares : SparesWaiters s e) (move : step s e = some t) (i : Fin nsem) :
    ((t.kernel.semtable i).value = (s.kernel.semtable i).value ∧
      transit t.kernel i = transit s.kernel i) ∨
    (∃ p, e = .semAcquire p i ∧ 0 < (s.kernel.semtable i).value ∧
      (t.kernel.semtable i).value = (s.kernel.semtable i).value - 1 ∧
      transit t.kernel i = transit s.kernel i) ∨
    ((t.kernel.semtable i).value = (s.kernel.semtable i).value - 1 ∧
      transit t.kernel i + 1 = transit s.kernel i) ∨
    ((t.kernel.semtable i).value = (s.kernel.semtable i).value + 1 ∧
      (transit t.kernel i = transit s.kernel i ∨
        transit t.kernel i = transit s.kernel i + 1)) := by
  have outside : ∀ t, StaysOutside s t → (t.kernel.semtable i).value =
      (s.kernel.semtable i).value ∧ transit t.kernel i = transit s.kernel i := fun t out =>
    ⟨by rw [out.sems],transit_congr (outside_inTransit out i)⟩
  obtain ⟨seated,queues⟩ := h
  obtain ⟨k,moves,rfl⟩ := step_moves move
  cases moves with
  | @semAcquire p j free =>
    have value := semAcquire_value s.kernel p j i
    by_cases slow : (s.kernel.semtable j).value ≤ 0
    · refine Or.inl ⟨?_, transit_congr (transit_after_sleep free slow · i)⟩
      simpa [Int.not_lt.mpr slow] using value
    · have moving : transit (semAcquire s.kernel p j) i = transit s.kernel i := by
        apply transit_congr
        intro r
        simp [InTransit, semAcquire, slow]
      by_cases same : i = j
      · subst j
        refine Or.inr (Or.inl ⟨p, rfl, by omega, ?_, moving⟩)
        simpa [Int.not_le.mp slow] using value
      · exact Or.inl ⟨by simpa [same] using value,moving⟩
  | @resume p j lodged woken _ =>
    have value := semResume_value s.kernel p j i
    have spared : (s.kernel.ptable p).killed = false := (seated p).spared (by simp [lodged])
    by_cases same : i = j
    · subst j
      refine Or.inr (Or.inr (Or.inl ⟨by simpa using value, ?_⟩))
      exact transit_resume_own spared lodged woken
    · refine Or.inl ⟨by simpa [same] using value, ?_⟩
      exact transit_congr (transit_resume_other spared lodged same)
  | @semRelease p j free _ =>
    have value := semRelease_value s.kernel j i
    by_cases wakes : (s.kernel.semtable j).increment.Wakes
    · obtain ⟨q,hq⟩ := queues j
      obtain ⟨f,_,_,handoff,_⟩ := handoff_of_wakes seated hq wakes
      by_cases same : i = j
      · subst j
        exact Or.inr (Or.inr (Or.inr ⟨by simpa using value,Or.inr (handoff_transit handoff)⟩))
      · refine Or.inl ⟨by simpa [same] using value, ?_⟩
        exact transit_congr (handoff_transit_other handoff same)
    · have moving : transit (semRelease s.kernel j) i = transit s.kernel i := by
        rw [release_silent wakes]
        exact transit_congr fun r => Iff.rfl
      by_cases same : i = j
      · subst j
        exact Or.inr (Or.inr (Or.inr ⟨by simpa using value,Or.inl moving⟩))
      · exact Or.inl ⟨by simpa [same] using value,moving⟩
  | kill => exact Or.inl (outside _ (outside_kill seated spares))
  | exit user => exact Or.inl (outside _ (outside_exit seated user))
  | wait zombie => exact Or.inl (outside _ (outside_wait seated zombie))
  | fork => exact Or.inl (outside _ (outside_fork seated))

/-- No unit is promised twice: every process in transit has one of the free units. -/
def Promised (i : Fin nsem) (s : Sys nproc nsem) : Prop :=
  (transit s.kernel i : Int) ≤ (s.kernel.semtable i).value

theorem promised_step {i : Fin nsem}
    (h : Orderly s) (spares : SparesWaiters s e) (turn : NoOvertaking i s e)
    (promised : Promised i s) (move : step s e = some t) : Promised i t := by
  unfold Promised at *
  rcases step_effect h spares move i with same | ⟨p,rfl,positive,taken⟩ | resumed | released
  · omega
  · have spare := turn rfl positive
    omega
  · omega
  · omega

variable {v : Fin nsem → Int} {es : List (Event nproc nsem)}

theorem promised_run {i : Fin nsem}
    (positive : 0 ≤ v i) (spares : Along step SparesWaiters (start v) es)
    (turn : Along step (NoOvertaking i) (start v) es)
    (run : exec step (start v) es = some s) : Promised i s := by
  refine (exec_invariant (fun s => Orderly s ∧ Promised i s) ?_ ?_ (along_and spares turn) run).2
  · rintro a e b ⟨orderly,promised⟩ ⟨spares,turn⟩ move
    exact ⟨orderly_step orderly spares move,promised_step orderly spares turn promised move⟩
  · refine ⟨orderly_start v, ?_⟩
    unfold Promised
    rw [transit_start]
    simpa [start, semInit] using positive

theorem value_bounded_below (calls : ∀ e ∈ es, SemCall e)
    (run : exec step (start v) es = some s) (i : Fin nsem) :
    min (v i) 0 + transit s.kernel i ≤ (s.kernel.semtable i).value + nproc := by
  have events : Along step (fun _ e => SemCall e) (start v) es :=
    along_of_forall fun e mem _ => calls e mem
  refine (exec_invariant (fun s => Orderly s ∧
    min (v i) 0 + transit s.kernel i ≤ (s.kernel.semtable i).value + nproc) ?_ ?_ events run).2
  · rintro a e b ⟨orderly,floor⟩ call move
    refine ⟨orderly_step orderly (spares_of_call call) move, ?_⟩
    have few := transit_le_nproc a.kernel i
    have low : min (v i) 0 ≤ 0 := Int.min_le_right _ _
    rcases step_effect orderly (spares_of_call call) move i
      with same | ⟨p,rfl,positive,taken⟩ | resumed | released
    · omega
    · omega
    · omega
    · omega
  · refine ⟨orderly_start v, ?_⟩
    rw [transit_start]
    have low : min (v i) 0 ≤ v i := Int.min_le_left _ _
    simp only [start, semInit]
    omega

def losses (l : Ledger nproc) : Nat × Nat × Nat := (l.lost, l.doomed, l.surplus)

def Clean (s : Sys nproc nsem) : Prop := ∀ i, losses (s.books.ledger i) = (0, 0, 0)

theorem clean_step (h : Orderly s) (clean : Clean s) (matched : Matched s e)
    (returns : ReturnsUnits s e) (move : step s e = some t) : Clean t := by
  intro j
  rw [← clean j]
  obtain ⟨k,_,rfl⟩ := step_moves move
  by_cases call : SemCall e
  · refine record_keeps losses call (fun p i lodged => (h.1 p).spared (by simp [lodged]))
      (fun _ => rfl) (fun _ _ => rfl) (fun _ _ => rfl) ?_ j
    rintro p i l rfl
    have owned : 0 < s.books.held p i := matched
    simp [losses, Ledger.release, owned]
  · cases e with
    | semAcquire | resume | semRelease => exact absurd trivial call
    | exit p => simp [record, losses, Books.retire, returns j]
    | kill | wait | fork => rfl

theorem value_exact (spares : Along step SparesWaiters (start v) es)
    (matched : Along step Matched (start v) es) (returns : Along step ReturnsUnits (start v) es)
    (run : exec step (start v) es = some s) (i : Fin nsem) :
    (s.kernel.semtable i).value = v i - s.books.units i := by
  have conditions := along_and spares (along_and matched returns)
  have clean : Clean s := by
    refine (exec_invariant (fun s => Orderly s ∧ Clean s) ?_ ?_ conditions run).2
    · rintro a e b ⟨orderly,clean⟩ ⟨spares,matched,returns⟩ move
      exact ⟨orderly_step orderly spares move,clean_step orderly clean matched returns move⟩
    · exact ⟨orderly_start v,fun i => rfl⟩
  have accounts := value_accounts_for_every_unit run i
  have none := clean i
  simp only [losses, Prod.mk.injEq] at none
  omega

theorem value_of_matched_calls (calls : ∀ e ∈ es, SemCall e)
    (matched : Along step Matched (start v) es) (run : exec step (start v) es = some s)
    (i : Fin nsem) : (s.kernel.semtable i).value = v i - s.books.units i :=
  value_exact (calls_spare calls) matched
    (along_of_forall fun e mem _ => returns_of_call (calls e mem)) run i

/-- On matched calls the value stays between `nproc` below the smaller of zero and the
    initial value, and that value. So no release overflows, and no decrement does from an
    initial value of at least INT_MIN + nproc. -/
theorem value_stays_in_range (calls : ∀ e ∈ es, SemCall e)
    (matched : Along step Matched (start v) es) (run : exec step (start v) es = some s)
    (i : Fin nsem) : min (v i) 0 - nproc ≤ (s.kernel.semtable i).value ∧
      (s.kernel.semtable i).value ≤ v i ∧
      (v i ≤ 2147483647 → ∀ p, Free s.kernel p → 0 < s.books.held p i →
        ∃ t, step s (.semRelease p i) = some t) ∧
      (-2147483648 + nproc ≤ min (v i) 0 → ∀ p, InTransit s.kernel i p →
        ∃ t, step s (.resume p) = some t) := by
  have floor := value_bounded_below calls run i
  have value := value_of_matched_calls calls matched run i
  refine ⟨by omega, by omega, ?_, ?_⟩
  · intro top p free holds
    have counted := held_le_units s.books p i
    exact release_defined free (by omega)
  · intro bottom p moving
    have counted := transit_pos moving
    exact resume_defined moving (by omega)

theorem holders_bounded {v : Fin nsem → Int} {i : Fin nsem} (positive : 0 ≤ v i)
    {s : Sys nproc nsem} {es : List (Event nproc nsem)} (calls : ∀ e ∈ es, SemCall e)
    (matched : Along step Matched (start v) es)
    (turn : Along step (NoOvertaking i) (start v) es)
    (run : exec step (start v) es = some s) : (inside s.books i : Int) ≤ v i := by
  have value := value_of_matched_calls calls matched run i
  have promised := promised_run positive (calls_spare calls) turn run
  have few := inside_le_units s.books i
  unfold Promised at promised
  omega

def handover : List (Event 64 5) :=
  [.semAcquire 0 0, .semAcquire 1 0, .semRelease 0 0, .resume 1]

theorem holders_bounded_handover :
    ∃ s : Sys 64 5, exec step (start fun _ => 1) handover = some s ∧
      (inside s.books 0 : Int) ≤ 1 := by
  have runs : (exec step (start fun _ => 1 : Sys 64 5) handover).isSome = true := by decide
  obtain ⟨s,run⟩ := Option.isSome_iff_exists.mp runs
  exact ⟨s,run,holders_bounded (v := fun _ => 1) (i := 0) (by decide) (by decide) (by decide)
    (by decide +kernel) run⟩

theorem value_stays_in_range_handover :
    ∃ s : Sys 64 5, exec step (start fun _ => 1) handover = some s ∧
      min 1 0 - 64 ≤ (s.kernel.semtable 0).value ∧ (s.kernel.semtable 0).value ≤ 1 ∧
        ∀ p, Free s.kernel p → 0 < s.books.held p 0 →
          ∃ t, step s (.semRelease p 0) = some t := by
  have runs : (exec step (start fun _ => 1 : Sys 64 5) handover).isSome = true := by decide
  obtain ⟨s,run⟩ := Option.isSome_iff_exists.mp runs
  have range := value_stays_in_range (v := fun _ => 1) (by decide) (by decide) run 0
  exact ⟨s, run, range.1, range.2.1, range.2.2.1 (by decide)⟩

def overtaking : List (Event 64 5) :=
  [.semAcquire 0 0, .semAcquire 1 0, .semRelease 0 0, .semAcquire 2 0, .resume 1]

theorem overtaking_breaks_mutual_exclusion :
    ¬ ∀ (v : Fin 5 → Int) (i : Fin 5) (es : List (Event 64 5)) (s : Sys 64 5),
      0 ≤ v i → (∀ e ∈ es, SemCall e) → Along step Matched (start v) es →
        exec step (start v) es = some s → (inside s.books i : Int) ≤ v i := by
  intro always
  have two : (exec step (start fun _ => 1 : Sys 64 5) overtaking).map
      (fun s => inside s.books 0) = some 2 := by decide +kernel
  obtain ⟨s,run,count⟩ := Option.map_eq_some_iff.mp two
  have bound := always (fun _ => 1) 0 overtaking s (by decide) (by decide) (by decide) run
  rw [count] at bound
  exact absurd bound (by decide)

end SemaphoreHolders
