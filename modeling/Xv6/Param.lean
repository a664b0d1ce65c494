import Mathlib.Algebra.GroupWithZero.Nat

/- The compile-time constants of param.h, proc.h and the top of proc.c that the models use,
   and the states of a process. -/
namespace Param

def maxOpBlocks : Nat := 10
def logSize : Nat := maxOpBlocks * 3

def starvingThreshold : UInt32 := 8000
def minBjfRank : Int32 := 1000000
def defaultMaxTickets : Int32 := 30
def maxSemaphore : Nat := 5

def numOfSyscalls : Nat := 50
def maxPidNumSaved : Nat := 1000
def maxPidTraced : Nat := 1000

inductive ProcState where
  | unused | embryo | sleeping | runnable | running | zombie
  deriving DecidableEq, Repr

/-- So that a numeral names a slot, a semaphore, a processor or the only process of a concrete
    run. -/
instance neZeroSlots : NeZero 64 := ⟨by decide⟩
instance neZeroSemaphores : NeZero 5 := ⟨by decide⟩
instance neZeroProcessors : NeZero 2 := ⟨by decide⟩
instance neZeroAlone : NeZero 1 := ⟨by decide⟩

end Param
