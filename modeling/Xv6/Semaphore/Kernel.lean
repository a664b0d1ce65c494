import Mathlib.Logic.Function.Basic
import Mathlib.Data.Fintype.Basic
import Xv6.Lib.RingQueue
import Xv6.Param

/- The semaphore calls of proc.c over the process table. `nproc` and `nsem` stand for NPROC
   and MAX_SEMAPHORE; MAX_SEMAPHORE_PROC is NPROC, so the ring of a semaphore has one cell
   per slot of the table. A critical section under semtable[i].lock is one function here,
   and so is what runs between a wakeup and the return of sem_acquire. -/
namespace KernelSemaphore
open RingQueue Param

/-- Where the kernel stack of a process stands: in user space, or inside
    `sem_acquire(i)` past the point where it called `sleep`. -/
inductive Place (nsem : Nat) where
  | user : Place nsem
  | acquiring : Fin nsem → Place nsem
  deriving DecidableEq, Repr

/-- The fields of `struct proc` these paths use. The only channel they sleep on is
    `&p->pid` of a slot, so `chan` names that slot; `none` is the null pointer. -/
structure Proc (nproc : Nat) where
  state : ProcState
  pid : Int
  chan : Option (Fin nproc)
  killed : Bool
  deriving DecidableEq, Repr

structure Semaphore (nproc : Nat) where
  value : Int
  frontProcIndex : Nat
  procsQueueSize : Nat
  queue : Fin nproc → Option (Fin nproc)

structure Kernel (nproc nsem : Nat) where
  semtable : Fin nsem → Semaphore nproc
  ptable : Fin nproc → Proc nproc
  place : Fin nproc → Place nsem
  nextpid : Int

variable {nproc nsem : Nat} [NeZero nproc]

def Semaphore.ring (m : Semaphore nproc) : Ring (Option (Fin nproc)) nproc :=
  ⟨m.frontProcIndex, m.procsQueueSize, m.queue⟩

def semInit (m : Semaphore nproc) (value : Int) : Semaphore nproc :=
  { m with value := value, frontProcIndex := 0, procsQueueSize := 0 }

/-- The body of the `value <= 0` branch of `sem_acquire`, before its `sleep`. -/
def Semaphore.enqueue (m : Semaphore nproc) (p : Fin nproc) : Semaphore nproc :=
  { m with
    procsQueueSize := m.procsQueueSize + 1
    queue := Function.update m.queue (slot nproc (m.frontProcIndex + m.procsQueueSize)) (some p) }

def Semaphore.decrement (m : Semaphore nproc) : Semaphore nproc :=
  { m with value := m.value - 1 }

def Semaphore.increment (m : Semaphore nproc) : Semaphore nproc :=
  { m with value := m.value + 1 }

/-- `value` is an int: its `value--` and `value++` have a meaning in C while the result is one. -/
def Semaphore.CanDecrement (m : Semaphore nproc) : Prop := -2147483648 < m.value

def Semaphore.CanIncrement (m : Semaphore nproc) : Prop := m.value < 2147483647

instance (m : Semaphore nproc) : Decidable m.CanDecrement :=
  inferInstanceAs (Decidable (-2147483648 < m.value))

instance (m : Semaphore nproc) : Decidable m.CanIncrement :=
  inferInstanceAs (Decidable (m.value < 2147483647))

def Semaphore.Wakes (m : Semaphore nproc) : Prop := 0 < m.value ∧ 0 < m.procsQueueSize

instance (m : Semaphore nproc) : Decidable m.Wakes :=
  inferInstanceAs (Decidable (0 < m.value ∧ 0 < m.procsQueueSize))

def Semaphore.front (m : Semaphore nproc) : Option (Fin nproc) :=
  m.queue (slot nproc m.frontProcIndex)

def Semaphore.dequeue (m : Semaphore nproc) : Semaphore nproc :=
  { m with
    frontProcIndex := (m.frontProcIndex + 1) % nproc
    procsQueueSize := m.procsQueueSize - 1 }

def sleep (chan : Fin nproc) (q : Proc nproc) : Proc nproc :=
  { q with chan := some chan, state := .sleeping }

def wakeup1 (chan : Option (Fin nproc)) (ptable : Fin nproc → Proc nproc) :
    Fin nproc → Proc nproc :=
  fun q => if (ptable q).state = .sleeping ∧ (ptable q).chan = chan
    then { ptable q with state := .runnable } else ptable q

/-- `sem_acquire(i)` by the process in slot `p`, up to its return or its sleep. -/
def semAcquire (k : Kernel nproc nsem) (p : Fin nproc) (i : Fin nsem) : Kernel nproc nsem :=
  if (k.semtable i).value ≤ 0 then
    { k with
      semtable := Function.update k.semtable i ((k.semtable i).enqueue p)
      ptable := Function.update k.ptable p (sleep p (k.ptable p))
      place := Function.update k.place p (.acquiring i) }
  else
    { k with semtable := Function.update k.semtable i (k.semtable i).decrement }

/-- Process `p` leaves for good: `exit`, also as trap() calls it on a killed process. -/
def exit (k : Kernel nproc nsem) (p : Fin nproc) : Kernel nproc nsem :=
  { k with
    ptable := Function.update k.ptable p { k.ptable p with state := .zombie }
    place := Function.update k.place p .user }

/-- The rest of `sem_acquire(i)` after `sleep`, then trap()'s check of `killed` on the way
    out of the system call. -/
def semResume (k : Kernel nproc nsem) (p : Fin nproc) (i : Fin nsem) : Kernel nproc nsem :=
  let back : Kernel nproc nsem :=
    { k with
      semtable := Function.update k.semtable i (k.semtable i).decrement
      ptable := Function.update k.ptable p { k.ptable p with chan := none }
      place := Function.update k.place p .user }
  if (k.ptable p).killed then exit back p else back

def semRelease (k : Kernel nproc nsem) (i : Fin nsem) : Kernel nproc nsem :=
  let m := (k.semtable i).increment
  if m.Wakes then
    { k with
      semtable := Function.update k.semtable i m.dequeue
      ptable := wakeup1 m.front k.ptable }
  else
    { k with semtable := Function.update k.semtable i m }

/-- The slot `kill(pid)` acts on: the first one with that pid. -/
def victim (k : Kernel nproc nsem) (pid : Int) : Option (Fin nproc) :=
  (List.finRange nproc).find? fun p => (k.ptable p).pid = pid

def kill (k : Kernel nproc nsem) (pid : Int) : Kernel nproc nsem × Int :=
  match victim k pid with
  | some p =>
    let q := { k.ptable p with killed := true }
    let q := if q.state = .sleeping then { q with state := .runnable } else q
    ({ k with ptable := Function.update k.ptable p q }, 0)
  | none => (k, -1)

def reap (k : Kernel nproc nsem) (p : Fin nproc) : Kernel nproc nsem :=
  let q := { k.ptable p with pid := 0, killed := false, state := .unused }
  { k with ptable := Function.update k.ptable p q }

/-- The slot `allocproc` takes, if the table has a free one. -/
def freeSlot (k : Kernel nproc nsem) : Option (Fin nproc) :=
  (List.finRange nproc).find? fun p => (k.ptable p).state = .unused

/-- `fork`: the child's slot ends up runnable with a fresh pid. -/
def fork (k : Kernel nproc nsem) : Kernel nproc nsem :=
  match freeSlot k with
  | some p =>
    let q := { k.ptable p with state := .runnable, pid := k.nextpid }
    { k with ptable := Function.update k.ptable p q, nextpid := k.nextpid + 1 }
  | none => k

omit [NeZero nproc] in
theorem kill_semtable (k : Kernel nproc nsem) (pid : Int) :
    (kill k pid).1.semtable = k.semtable := by
  unfold kill
  split <;> rfl

omit [NeZero nproc] in
theorem fork_semtable (k : Kernel nproc nsem) : (fork k).semtable = k.semtable := by
  unfold fork
  split <;> rfl

omit [NeZero nproc] in
theorem semResume_semtable (k : Kernel nproc nsem) (p : Fin nproc) (i : Fin nsem) :
    (semResume k p i).semtable = Function.update k.semtable i (k.semtable i).decrement := by
  unfold semResume
  split <;> rfl

theorem semRelease_place (k : Kernel nproc nsem) (i : Fin nsem) :
    (semRelease k i).place = k.place := by
  unfold semRelease
  dsimp only
  split <;> rfl

end KernelSemaphore
