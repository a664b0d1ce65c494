import Xv6.Lib.Tally
import Xv6.Semaphore.System

/- Where the units of a semaphore are. The equations below hold in every run, kills and
   unmatched releases included: they say what `value` is, not what it should be. -/
namespace SemaphoreAccounts
open RunLaws Tally KernelSemaphore SemaphoreSystem
variable {nproc nsem : Nat}

theorem units_change (b : Books nproc nsem) (p : Fin nproc) (row : Fin nsem → Nat)
    (j : Fin nsem) :
    ∑ r, Function.update b.held p row r j + b.held p j = b.units j + row j := by
  have moved := sum_change (f := fun r => b.held r j)
    (g := fun r => Function.update b.held p row r j) p fun r other => by simp [other]
  simpa [Books.units] using moved

theorem units_post (b : Books nproc nsem) (i j : Fin nsem) (f : Ledger nproc → Ledger nproc) :
    (b.post i f).units j = b.units j := rfl

theorem dropHeld_ledger (b : Books nproc nsem) (p : Fin nproc) (i : Fin nsem) :
    (b.dropHeld p i).ledger = b.ledger := rfl

variable {b : Books nproc nsem}

theorem post_keeps {α : Type} (reading : Ledger nproc → α)
    {i : Fin nsem} {f : Ledger nproc → Ledger nproc}
    (keeps : reading (f (b.ledger i)) = reading (b.ledger i)) (j : Fin nsem) :
    reading ((b.post i f).ledger j) = reading (b.ledger j) := by
  by_cases same : j = i
  · subst j
    simpa [Books.post] using keeps
  · simp [Books.post, same]

theorem units_addHeld (b : Books nproc nsem) (p : Fin nproc) (i j : Fin nsem) :
    (b.addHeld p i).units j = b.units j + if j = i then 1 else 0 := by
  have moved := units_change b p (Function.update (b.held p) i (b.held p i + 1)) j
  simp only [Books.units, Books.addHeld] at moved ⊢
  by_cases same : j = i
  · subst j
    simp only [Function.update_self, ↓reduceIte] at moved ⊢
    omega
  · simp only [Function.update_of_ne same, same, ↓reduceIte] at moved ⊢
    omega

theorem units_dropHeld (b : Books nproc nsem) (p : Fin nproc) (i j : Fin nsem) :
    (b.dropHeld p i).units j + (if j = i ∧ 0 < b.held p i then 1 else 0) = b.units j := by
  have moved := units_change b p (Function.update (b.held p) i (b.held p i - 1)) j
  simp only [Books.units, Books.dropHeld] at moved ⊢
  by_cases same : j = i
  · subst j
    simp only [Function.update_self, true_and] at moved ⊢
    split <;> omega
  · simp only [Function.update_of_ne same, same, false_and, ↓reduceIte] at moved ⊢
    omega

theorem units_retire (b : Books nproc nsem) (p : Fin nproc) (j : Fin nsem) :
    (b.retire p).units j + b.held p j = b.units j := by
  have moved := units_change b p (fun _ => 0) j
  simpa [Books.units, Books.retire] using moved

/-- `value` is the initial value with the completed calls applied, and every completed
    acquire is in some process's hands, was released, or left with a dead process. -/
structure Balanced (v value : Int) (units : Nat) (l : Ledger nproc) : Prop where
  value : value + l.acquires = v + l.releases
  units : l.acquires + l.surplus = units + l.lost + l.doomed + l.releases

variable {value : Int} {units : Nat} {l : Ledger nproc}

theorem balanced_acquire {v : Int}
    (h : Balanced v value units l) : Balanced v (value - 1) (units + 1) l.acquire := by
  have hv := h.value
  have hu := h.units
  constructor
  · simp only [Ledger.acquire]; omega
  · simp only [Ledger.acquire]; omega

theorem balanced_doom {v : Int}
    (h : Balanced v value units l) :
    Balanced v (value - 1) units { l.acquire with doomed := l.doomed + 1 } := by
  have hv := h.value
  have hu := h.units
  constructor
  · simp only [Ledger.acquire]; omega
  · simp only [Ledger.acquire]; omega

theorem balanced_release {v : Int} {held : Nat}
    (h : Balanced v value (units + if 0 < held then 1 else 0) l) :
    Balanced v (value + 1) units (l.release (0 < held)) := by
  have hv := h.value
  have hu := h.units
  by_cases owned : 0 < held <;> simp only [owned, ↓reduceIte] at hu
  · constructor <;> simp [Ledger.release, owned] <;> omega
  · constructor <;> simp [Ledger.release, owned] <;> omega

theorem balanced_wake {v : Int}
    (h : Balanced v value units l) (front : Option (Fin nproc)) :
    Balanced v value units (l.wake front) := ⟨h.value,h.units⟩

theorem balanced_arrive {v : Int}
    (h : Balanced v value units l) (p : Fin nproc) : Balanced v value units (l.arrive p) :=
  ⟨h.value,h.units⟩

def Balance (v : Fin nsem → Int) (k : Kernel nproc nsem) (b : Books nproc nsem)
    (i : Fin nsem) : Prop :=
  Balanced (v i) (k.semtable i).value (b.units i) (b.ledger i)

variable {v : Fin nsem → Int} {k : Kernel nproc nsem}

theorem balance_retire {i : Fin nsem} (h : Balance v k b i) (p : Fin nproc) :
    Balance v k (b.retire p) i := by
  have moved := units_retire b p i
  have hu := h.units
  refine ⟨h.value, ?_⟩
  simp only [Books.retire] at moved ⊢
  omega

theorem balance_start (v : Fin nsem → Int) (i : Fin nsem) :
    Balance v (start v : Sys nproc nsem).kernel (start v : Sys nproc nsem).books i := by
  constructor
  · simp [start, semInit]
  · simp [start, Books.units]

theorem semResume_value (k : Kernel nproc nsem) (p : Fin nproc) (i j : Fin nsem) :
    ((semResume k p i).semtable j).value = (k.semtable j).value - if j = i then 1 else 0 := by
  rw [semResume_semtable]
  by_cases same : j = i
  · subst j
    simp [Semaphore.decrement]
  · simp [same]

variable [NeZero nproc]

theorem balance_acquire {j : Fin nsem} (h : Balance v k b j) (p : Fin nproc) (i : Fin nsem) :
    Balance v (semAcquire k p i) (record k b (.semAcquire p i)) j := by
  have kept : Balanced (v j) (k.semtable j).value (b.units j) (b.ledger j) := h
  by_cases slow : (k.semtable i).value ≤ 0
  · simp only [Balance, semAcquire, record, slow, ↓reduceIte, units_post]
    by_cases same : j = i
    · subst j
      simpa [Books.post, Semaphore.enqueue] using balanced_arrive h p
    · simpa [Books.post, same] using kept
  · simp only [Balance, semAcquire, record, slow, ↓reduceIte, units_addHeld, units_post]
    by_cases same : j = i
    · subst j
      simpa [Books.addHeld, Books.post, Semaphore.decrement] using balanced_acquire h
    · simpa [Books.addHeld, Books.post, same] using kept

theorem balance_resume {j : Fin nsem} (h : Balance v k b j) (p : Fin nproc) (i : Fin nsem)
    (inside : k.place p = .acquiring i) :
    Balance v (semResume k p i) (record k b (.resume p)) j := by
  have kept : Balanced (v j) (k.semtable j).value (b.units j) (b.ledger j) := h
  by_cases killed : (k.ptable p).killed = true
  · -- the unit is doomed, the other holdings of p are lost with it
    simp only [record, inside, killed, ↓reduceIte]
    apply balance_retire
    simp only [Balance, semResume_semtable, units_post]
    by_cases same : j = i
    · subst j
      simpa [Books.post, Semaphore.decrement] using balanced_doom h
    · simpa [Books.post, same] using kept
  · simp only [Balance, record, inside, killed, semResume_semtable]
    rw [if_neg (by simp), units_addHeld, units_post]
    by_cases same : j = i
    · subst j
      simpa [Books.addHeld, Books.post, Semaphore.decrement] using balanced_acquire h
    · simpa [Books.addHeld, Books.post, same] using kept

theorem semAcquire_value (k : Kernel nproc nsem) (p : Fin nproc) (i j : Fin nsem) :
    ((semAcquire k p i).semtable j).value =
      (k.semtable j).value - if j = i ∧ 0 < (k.semtable i).value then 1 else 0 := by
  unfold semAcquire
  by_cases same : j = i
  · subst j
    split
    · next none_ => simp [Semaphore.enqueue, Int.not_lt.mpr none_]
    · next some_ => simp [Semaphore.decrement, Int.not_le.mp some_]
  · split <;> simp [same]

theorem semRelease_value (k : Kernel nproc nsem) (i j : Fin nsem) :
    ((semRelease k i).semtable j).value = (k.semtable j).value + if j = i then 1 else 0 := by
  unfold semRelease
  dsimp only
  by_cases same : j = i
  · subst j
    split <;> simp [Semaphore.increment, Semaphore.dequeue]
  · split <;> simp [same]

theorem balance_release {j : Fin nsem} (h : Balance v k b j) (p : Fin nproc) (i : Fin nsem) :
    Balance v (semRelease k i) (record k b (.semRelease p i)) j := by
  have dropped := units_dropHeld b p i j
  simp only [Balance, semRelease_value]
  by_cases same : j = i
  · subst j
    simp only [true_and, ↓reduceIte] at dropped ⊢
    have before : Balanced (v i) (k.semtable i).value (b.units i) (b.ledger i) := h
    rw [← dropped] at before
    have posted := balanced_release before
    by_cases wakes : (k.semtable i).increment.Wakes
    · simpa [record, wakes, Books.dropHeld, Books.post, Books.units] using
        balanced_wake posted (k.semtable i).increment.front
    · simpa [record, wakes, Books.dropHeld, Books.post, Books.units] using posted
  · simp only [same, false_and, ↓reduceIte, Nat.add_zero] at dropped
    have kept : Balanced (v j) (k.semtable j).value ((b.dropHeld p i).units j) (b.ledger j) :=
      dropped ▸ h
    by_cases wakes : (k.semtable i).increment.Wakes <;>
      simpa [record, wakes, same, Books.dropHeld, Books.post, Books.units] using kept

variable {s : Sys nproc nsem}

theorem balance_step {t : Sys nproc nsem} {e : Event nproc nsem}
    (h : ∀ i, Balance v s.kernel s.books i) (move : step s e = some t) :
    ∀ i, Balance v t.kernel t.books i := by
  intro j
  obtain ⟨k,moves,rfl⟩ := step_moves move
  cases moves with
  | semAcquire free => exact balance_acquire (h j) _ _
  | resume lodged woken _ => exact balance_resume (h j) _ _ lodged
  | semRelease free _ => exact balance_release (h j) _ _
  | kill => simpa [Balance, kill_semtable, record] using h j
  | exit outside => exact balance_retire (h j) _
  | wait zombie => exact h j
  | fork => simpa [Balance, fork_semtable, record] using h j

theorem balance_run {es : List (Event nproc nsem)}
    (run : exec step (start v) es = some s) (i : Fin nsem) : Balance v s.kernel s.books i :=
  exec_invariant (fun s : Sys nproc nsem => ∀ i, Balance v s.kernel s.books i)
    (fun _ _ _ h _ move => balance_step h move) (balance_start v) (along_trivial _ es) run i

/-- In every run `value` is the initial value, less the units in use or gone with dead
    processes, plus the releases nobody was entitled to make. -/
theorem value_accounts_for_every_unit {es : List (Event nproc nsem)}
    (run : exec step (start v) es = some s) (i : Fin nsem) :
    (s.kernel.semtable i).value = v i - s.books.units i - (s.books.ledger i).lost -
      (s.books.ledger i).doomed + (s.books.ledger i).surplus := by
  have hv := (balance_run run i).value
  have hu := (balance_run run i).units
  omega

def FitsInt (value : Int) : Prop := -2147483648 ≤ value ∧ value ≤ 2147483647

theorem fits_step {t : Sys nproc nsem} {e : Event nproc nsem} {i : Fin nsem}
    (fits : FitsInt (s.kernel.semtable i).value) (move : step s e = some t) :
    FitsInt (t.kernel.semtable i).value := by
  unfold FitsInt at fits ⊢
  obtain ⟨k,moves,rfl⟩ := step_moves move
  cases moves with
  | semAcquire free =>
    simp only [semAcquire_value]
    split
    · next taken =>
      obtain ⟨rfl,some_⟩ := taken
      omega
    · omega
  | resume lodged woken room =>
    unfold Semaphore.CanDecrement at room
    simp only [semResume_value]
    split
    · next same => subst same; omega
    · omega
  | semRelease free room =>
    unfold Semaphore.CanIncrement at room
    simp only [semRelease_value]
    split
    · next same => subst same; omega
    · omega
  | kill => simpa [kill_semtable] using fits
  | exit outside => exact fits
  | wait zombie => exact fits
  | fork => simpa [fork_semtable] using fits

theorem fits_run {es : List (Event nproc nsem)} {i : Fin nsem}
    (run : exec step (start v) es = some s) (fits : FitsInt (v i)) :
    FitsInt (s.kernel.semtable i).value :=
  exec_invariant (fun s : Sys nproc nsem => FitsInt (s.kernel.semtable i).value)
    (fun _ _ _ h _ move => fits_step h move) fits (along_trivial _ es) run

theorem record_keeps {α : Type} (reading : Ledger nproc → α)
    {e : Event nproc nsem} (call : SemCall e)
    (spared : ∀ p i, k.place p = .acquiring i → (k.ptable p).killed = false)
    (acquire : ∀ l, reading l.acquire = reading l)
    (arrive : ∀ l p, reading (l.arrive p) = reading l)
    (wake : ∀ l f, reading (l.wake f) = reading l)
    (release : ∀ p i l, e = .semRelease p i → reading (l.release (0 < b.held p i)) = reading l)
    (j : Fin nsem) : reading ((record k b e).ledger j) = reading (b.ledger j) := by
  cases e with
  | semAcquire p i =>
    simp only [record]
    split
    · exact post_keeps reading (arrive _ p) j
    · exact post_keeps reading (acquire _) j
  | resume p =>
    cases lodged : k.place p with
    | user => simp [record, lodged]
    | acquiring i =>
      simp only [record, lodged, spared p i lodged]
      exact post_keeps reading (acquire _) j
  | semRelease p i =>
    simp only [record]
    split
    · rw [dropHeld_ledger]
      exact post_keeps reading ((wake _ _).trans (release p i _ rfl)) j
    · rw [dropHeld_ledger]
      exact post_keeps reading (release p i _ rfl) j
  | kill pid => exact absurd call (by simp [SemCall])
  | exit p => exact absurd call (by simp [SemCall])
  | wait p => exact absurd call (by simp [SemCall])
  | fork => exact absurd call (by simp [SemCall])

end SemaphoreAccounts
