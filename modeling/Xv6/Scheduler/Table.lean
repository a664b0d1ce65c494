import Mathlib.Data.List.FinRange
import Mathlib.Logic.Function.Basic
import Xv6.Lib.RunLaws
import Xv6.Param

/- The process table as the scheduler of proc.c sees it, and the calls that change it. `int`
   is Int32 and `uint` is UInt32: both wrap around, and the remainder of Int32 truncates as
   in C. `nproc` stands for NPROC. Each function runs under ptable.lock and is one step. -/
namespace ProcTable
open Param RunLaws

/-- The float operations the kernel uses. Nothing is assumed about how they round. -/
class FloatOps (F : Type) where
  ofInt : Int32 → F
  add : F → F → F
  mul : F → F → F
  -- `x += 0.1`
  addTenth : F → F
  lt : F → F → Bool

instance : FloatOps Rat where
  ofInt i := i.toInt
  add x y := x + y
  mul x y := x * y
  addTenth x := x + 1 / 10
  lt x y := decide (x < y)

/-- The fields of `struct proc` that scheduling reads or writes; a null `chan` is 0. -/
structure Proc (F : Type) where
  state : ProcState
  pid : Int32
  chan : UInt32
  queue : Int32
  enteredQueue : Int32
  tickets : Int32
  priorityRatio : Int32
  arrivalTimeRatio : Int32
  executedCycleRatio : Int32
  executedCycle : F
  priority : Int32

structure Sched (nproc : Nat) (F : Type) where
  proc : Fin nproc → Proc F
  ticks : UInt32
  nextpid : Int32

variable {nproc : Nat} {F : Type} [FloatOps F]

def generateRandomNumber (ticks : UInt32) (min max : Int32) : Int32 :=
  if min ≥ max then
    if max > 0 then max else -1 * max
  else
    let diff := max - min + 1
    let time := ticks.toInt32
    let randNum := (1 + (1 + ((time + 2) % diff) * (time + 1) * 132) % diff) *
      (1 + time % max) * (1 + 2 * max % diff)
    randNum % (max - min + 1) + min

def setProc (s : Sched nproc F) (p : Fin nproc) (q : Proc F) : Sched nproc F :=
  { s with proc := Function.update s.proc p q }

def freeSlot (s : Sched nproc F) : Option (Fin nproc) :=
  (List.finRange nproc).find? fun p => (s.proc p).state = .unused

/-- `allocproc` once it has found the slot `p`. -/
def allocproc (s : Sched nproc F) (p : Fin nproc) : Sched nproc F :=
  let q := { s.proc p with
    state := .embryo
    pid := s.nextpid
    enteredQueue := s.ticks.toInt32
    queue := 1
    executedCycle := FloatOps.ofInt 0
    priorityRatio := 1
    arrivalTimeRatio := 1
    executedCycleRatio := 1
    priority := 1
    tickets := generateRandomNumber s.ticks 1 defaultMaxTickets }
  { setProc s p q with nextpid := s.nextpid + 1 }

/-- Also `userinit`: the two differ only in what they copy into the new process. -/
def fork (s : Sched nproc F) : Sched nproc F :=
  match freeSlot s with
  | none => s
  | some p =>
    let t := allocproc s p
    setProc t p { t.proc p with state := .runnable }

def yield (s : Sched nproc F) (p : Fin nproc) : Sched nproc F :=
  let q := { s.proc p with
    state := .runnable
    executedCycle := FloatOps.addTenth (s.proc p).executedCycle }
  setProc s p q

def sleep (s : Sched nproc F) (p : Fin nproc) (chan : UInt32) : Sched nproc F :=
  setProc s p { s.proc p with chan := chan, state := .sleeping }

def wakeup (s : Sched nproc F) (chan : UInt32) : Sched nproc F :=
  { s with proc := fun p =>
      if (s.proc p).state = .sleeping ∧ (s.proc p).chan = chan then
        { s.proc p with state := .runnable }
      else s.proc p }

def exit (s : Sched nproc F) (p : Fin nproc) : Sched nproc F :=
  setProc s p { s.proc p with state := .zombie }

/-- The part of `wait` that reaps the child `p`. -/
def reap (s : Sched nproc F) (p : Fin nproc) : Sched nproc F :=
  setProc s p { s.proc p with pid := 0, state := .unused }

def setProcQueue (s : Sched nproc F) (pid queue : Int32) : Sched nproc F :=
  { s with proc := fun p =>
      if (s.proc p).pid = pid then { s.proc p with queue := queue } else s.proc p }

def setLotteryParams (s : Sched nproc F) (pid ticketChance : Int32) : Sched nproc F :=
  { s with proc := fun p =>
      if (s.proc p).pid = pid then { s.proc p with tickets := ticketChance } else s.proc p }

def setRatios (q : Proc F) (priorityRatio arrivalTimeRatio executedCycleRatio : Int32) :
    Proc F :=
  { q with
    priorityRatio := priorityRatio
    arrivalTimeRatio := arrivalTimeRatio
    executedCycleRatio := executedCycleRatio }

def setAProcBjfParams (s : Sched nproc F)
    (pid priorityRatio arrivalTimeRatio executedCycleRatio : Int32) : Sched nproc F :=
  { s with proc := fun p =>
      if (s.proc p).pid = pid then
        setRatios (s.proc p) priorityRatio arrivalTimeRatio executedCycleRatio
      else s.proc p }

def setAllBjfParams (s : Sched nproc F)
    (priorityRatio arrivalTimeRatio executedCycleRatio : Int32) : Sched nproc F :=
  { s with proc := fun p =>
      setRatios (s.proc p) priorityRatio arrivalTimeRatio executedCycleRatio }

end ProcTable
