import Xv6.Semaphore.Holders

/- Kills and semaphores. A process killed inside sem_acquire is made runnable without being
   taken out of the ring; it decrements the value on its way out and exits without a
   release. -/
namespace SemaphoreKill
open RingQueue RunLaws KernelSemaphore SemaphoreSystem SemaphoreAccounts SemaphoreQueue
  SemaphoreHolders
variable {nproc nsem : Nat} [NeZero nproc]

variable {s : Sys nproc nsem}

def killedWaiter : List (Event 64 5) := [.semAcquire 0 0, .semAcquire 1 0, .kill 2, .resume 1]

end SemaphoreKill
