import Mathlib.Algebra.BigOperators.Fin
import Xv6.Lib.RunLaws
import Xv6.Semaphore.Kernel

/- The semaphore calls as one machine: any process may take its next step at any time, so a
   list of events is an interleaving. The books beside the kernel state only record what
   happened; no step reads them. -/
namespace SemaphoreSystem
open RingQueue RunLaws KernelSemaphore

inductive Event (nproc nsem : Nat) where
  | semAcquire : Fin nproc → Fin nsem → Event nproc nsem
  | resume : Fin nproc → Event nproc nsem
  | semRelease : Fin nproc → Fin nsem → Event nproc nsem
  | kill : Int → Event nproc nsem
  | exit : Fin nproc → Event nproc nsem
  | wait : Fin nproc → Event nproc nsem
  | fork : Event nproc nsem
  deriving DecidableEq, Repr

def SemCall {nproc nsem : Nat} : Event nproc nsem → Prop
  | .semAcquire _ _ | .resume _ | .semRelease _ _ => True
  | _ => False

instance {nproc nsem : Nat} : ∀ e : Event nproc nsem, Decidable (SemCall e)
  | .semAcquire _ _ | .resume _ | .semRelease _ _ => isTrue trivial
  | .kill _ | .exit _ | .wait _ | .fork => isFalse id

/-- What happened to one semaphore. `arrivals` and `woken` list the processes that went to
    sleep in `sem_acquire` and those `sem_release` woke, oldest first. `lost` are units a
    process held in user space when it exited, `doomed` are units taken by a process that
    left `sem_acquire` only to exit because it was killed, and `surplus` are releases by a
    process that held no unit. -/
structure Ledger (nproc : Nat) where
  acquires : Nat
  releases : Nat
  arrivals : List (Fin nproc)
  woken : List (Fin nproc)
  lost : Nat
  doomed : Nat
  surplus : Nat

/-- `held p i` counts the acquires of `i` that returned to the process in slot `p` and
    that it has not released. -/
structure Books (nproc nsem : Nat) where
  held : Fin nproc → Fin nsem → Nat
  ledger : Fin nsem → Ledger nproc

structure Sys (nproc nsem : Nat) where
  kernel : Kernel nproc nsem
  books : Books nproc nsem

variable {nproc nsem : Nat}

def Books.units (b : Books nproc nsem) (i : Fin nsem) : Nat := ∑ p, b.held p i

variable [NeZero nproc]

def Free (k : Kernel nproc nsem) (p : Fin nproc) : Prop :=
  (k.ptable p).state = .runnable ∧ k.place p = .user ∧ (k.ptable p).killed = false

instance (k : Kernel nproc nsem) (p : Fin nproc) : Decidable (Free k p) :=
  inferInstanceAs (Decidable (_ ∧ _ ∧ _))

def Asleep (k : Kernel nproc nsem) (p : Fin nproc) (i : Fin nsem) : Prop :=
  k.place p = .acquiring i ∧ (k.ptable p).state = .sleeping

instance (k : Kernel nproc nsem) (p : Fin nproc) (i : Fin nsem) : Decidable (Asleep k p i) :=
  inferInstanceAs (Decidable (_ ∧ _))

def InTransit (k : Kernel nproc nsem) (i : Fin nsem) (p : Fin nproc) : Prop :=
  k.place p = .acquiring i ∧ (k.ptable p).state = .runnable

instance (k : Kernel nproc nsem) (p : Fin nproc) (i : Fin nsem) : Decidable (InTransit k i p) :=
  inferInstanceAs (Decidable (_ ∧ _))

def transit (k : Kernel nproc nsem) (i : Fin nsem) : Nat :=
  (Finset.univ.filter (InTransit k i)).card

/-- One step of the kernel. A process that is runnable but not dispatched differs from a
    running one only in when its next event comes, so `runnable` stands for both. An
    increment or a decrement that leaves the range of an int has no next state; the
    decrement of a `sem_acquire` that does not sleep starts above zero. -/
def kernelStep (k : Kernel nproc nsem) : Event nproc nsem → Option (Kernel nproc nsem)
  | .semAcquire p i => if Free k p then some (semAcquire k p i) else none
  | .resume p =>
    match k.place p with
    | .acquiring i =>
      if (k.ptable p).state = .runnable ∧ (k.semtable i).CanDecrement
        then some (semResume k p i) else none
    | .user => none
  | .semRelease p i =>
    if Free k p ∧ (k.semtable i).CanIncrement then some (semRelease k i) else none
  | .kill pid => some (kill k pid).1
  | .exit p =>
    if (k.ptable p).state = .runnable ∧ k.place p = .user then some (exit k p) else none
  | .wait p => if (k.ptable p).state = .zombie then some (reap k p) else none
  | .fork => some (fork k)

def Ledger.acquire (l : Ledger nproc) : Ledger nproc := { l with acquires := l.acquires + 1 }

def Ledger.arrive (l : Ledger nproc) (p : Fin nproc) : Ledger nproc :=
  { l with arrivals := l.arrivals ++ [p] }

def Ledger.release (l : Ledger nproc) (owned : Bool) : Ledger nproc :=
  { l with
    releases := l.releases + 1
    surplus := if owned then l.surplus else l.surplus + 1 }

def Ledger.wake (l : Ledger nproc) (front : Option (Fin nproc)) : Ledger nproc :=
  { l with woken := l.woken ++ front.toList }

def Books.retire (b : Books nproc nsem) (p : Fin nproc) : Books nproc nsem :=
  ⟨Function.update b.held p (fun _ => 0),
   fun j => { b.ledger j with lost := (b.ledger j).lost + b.held p j }⟩

def Books.addHeld (b : Books nproc nsem) (p : Fin nproc) (i : Fin nsem) : Books nproc nsem :=
  { b with held := Function.update b.held p (Function.update (b.held p) i (b.held p i + 1)) }

def Books.dropHeld (b : Books nproc nsem) (p : Fin nproc) (i : Fin nsem) : Books nproc nsem :=
  { b with held := Function.update b.held p (Function.update (b.held p) i (b.held p i - 1)) }

def Books.post (b : Books nproc nsem) (i : Fin nsem) (f : Ledger nproc → Ledger nproc) :
    Books nproc nsem :=
  { b with ledger := Function.update b.ledger i (f (b.ledger i)) }

/-- The entry an event makes in the books, read off the kernel state it starts from. -/
def record (k : Kernel nproc nsem) (b : Books nproc nsem) : Event nproc nsem → Books nproc nsem
  | .semAcquire p i =>
    if (k.semtable i).value ≤ 0 then b.post i (·.arrive p)
    else (b.post i (·.acquire)).addHeld p i
  | .resume p =>
    match k.place p with
    | .acquiring i =>
      if (k.ptable p).killed then
        (b.post i fun l => { l.acquire with doomed := l.doomed + 1 }).retire p
      else (b.post i (·.acquire)).addHeld p i
    | .user => b
  | .semRelease p i =>
    let entry := fun l : Ledger nproc => l.release (0 < b.held p i)
    let m := (k.semtable i).increment
    if m.Wakes then (b.post i fun l => (entry l).wake m.front).dropHeld p i
    else (b.post i entry).dropHeld p i
  | .exit p => b.retire p
  | _ => b

def step (s : Sys nproc nsem) (e : Event nproc nsem) : Option (Sys nproc nsem) :=
  (kernelStep s.kernel e).map fun k => ⟨k,record s.kernel s.books e⟩

/-- Every slot holds a process in user space and every semaphore was set by `sem_init`. -/
def start (v : Fin nsem → Int) : Sys nproc nsem where
  kernel :=
    { semtable := fun i => semInit ⟨0, 0, 0, fun _ => none⟩ (v i)
      ptable := fun p => ⟨.runnable, p.val + 1, none, false⟩
      place := fun _ => .user
      nextpid := nproc + 1 }
  books := ⟨fun _ _ => 0, fun _ => ⟨0, 0, [], [], 0, 0, 0⟩⟩

inductive Moves (k : Kernel nproc nsem) : Event nproc nsem → Kernel nproc nsem → Prop
  | semAcquire {p i} (free : Free k p) : Moves k (.semAcquire p i) (semAcquire k p i)
  | resume {p i} (lodged : k.place p = .acquiring i) (woken : (k.ptable p).state = .runnable)
      (fits : (k.semtable i).CanDecrement) : Moves k (.resume p) (semResume k p i)
  | semRelease {p i} (free : Free k p) (fits : (k.semtable i).CanIncrement) :
    Moves k (.semRelease p i) (semRelease k i)
  | kill {pid} : Moves k (.kill pid) (kill k pid).1
  | exit {p} (outside : k.place p = .user) : Moves k (.exit p) (exit k p)
  | wait {p} (zombie : (k.ptable p).state = .zombie) : Moves k (.wait p) (reap k p)
  | fork : Moves k .fork (fork k)

theorem step_moves {s t : Sys nproc nsem} {e : Event nproc nsem} (move : step s e = some t) :
    ∃ k, Moves s.kernel e k ∧ t = ⟨k,record s.kernel s.books e⟩ := by
  simp only [step, Option.map_eq_some_iff] at move
  obtain ⟨k,next,rfl⟩ := move
  refine ⟨k, ?_, rfl⟩
  cases e with
  | semAcquire p i =>
    simp only [kernelStep, Option.ite_none_right_eq_some, Option.some.injEq] at next
    exact next.2 ▸ .semAcquire next.1
  | resume p =>
    simp only [kernelStep] at next
    split at next
    · rename_i i lodged
      simp only [Option.ite_none_right_eq_some, Option.some.injEq] at next
      exact next.2 ▸ .resume lodged next.1.1 next.1.2
    · cases next
  | semRelease p i =>
    simp only [kernelStep, Option.ite_none_right_eq_some, Option.some.injEq] at next
    exact next.2 ▸ .semRelease next.1.1 next.1.2
  | kill pid =>
    simp only [kernelStep, Option.some.injEq] at next
    exact next ▸ .kill
  | exit p =>
    simp only [kernelStep, Option.ite_none_right_eq_some, Option.some.injEq] at next
    exact next.2 ▸ .exit next.1.2
  | wait p =>
    simp only [kernelStep, Option.ite_none_right_eq_some, Option.some.injEq] at next
    exact next.2 ▸ .wait next.1
  | fork =>
    simp only [kernelStep, Option.some.injEq] at next
    exact next ▸ .fork

section Defined
variable {s : Sys nproc nsem} {p : Fin nproc} {i : Fin nsem}

theorem acquire_defined (free : Free s.kernel p) : ∃ t, step s (.semAcquire p i) = some t := by
  simp [step, kernelStep, free]

theorem release_defined (free : Free s.kernel p) (room : (s.kernel.semtable i).value < 2147483647) :
    ∃ t, step s (.semRelease p i) = some t := by
  have fits : (s.kernel.semtable i).CanIncrement := room
  simp [step, kernelStep, free, fits]

theorem resume_defined (moving : InTransit s.kernel i p)
    (room : -2147483648 < (s.kernel.semtable i).value) : ∃ t, step s (.resume p) = some t := by
  have fits : (s.kernel.semtable i).CanDecrement := room
  simp [step, kernelStep, moving.1, moving.2, fits]

end Defined

end SemaphoreSystem
