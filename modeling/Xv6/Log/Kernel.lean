import Mathlib.Logic.Function.Basic
import Xv6.Lib.RunLaws
import Xv6.Log.Commit

/- begin_op, log_write and end_op of log.c, run by `nproc` processes. A critical section
   under log.lock is one step; the checks of log_write run before it takes the lock, and
   commit() runs without the lock, one disk write at a time. Beside the kernel's own state
   stand books that record what each operation logged and what each commit wrote. -/
namespace LogKernel
open DiskWrites DiskLog Param

inductive Pc where
  | user
  -- Asleep in `begin_op`.
  | sleeping
  -- Made runnable by a wakeup, still in the loop of `begin_op`.
  | woken
  -- Between `begin_op` and `end_op`.
  | running
  -- In `log_write` of a block, past the checks.
  | logWrite : Nat → Pc
  | commit
  | writeLog : Nat → Pc
  | writeHead
  | installTrans : Nat → Pc
  | eraseHead
  -- Back from `commit`, before the last critical section of `end_op`.
  | finishing
  deriving DecidableEq, Repr

inductive Panic where
  | tooBigATransaction
  | logWriteOutsideOfTrans
  | logCommitting
  -- A write behind the end of `lh.block[]`: the model stops there.
  | overrun
  deriving DecidableEq, Repr

/-- `block` is `lh.block[0..lh.n)`. -/
structure Kernel (nproc : Nat) where
  block : List Nat
  outstanding : Int
  committing : Bool
  pc : Fin nproc → Pc
  panicked : Option Panic

variable {nproc : Nat}

def Kernel.setPc (k : Kernel nproc) (p : Fin nproc) (c : Pc) : Kernel nproc :=
  { k with pc := Function.update k.pc p c }

def Kernel.wakeup (k : Kernel nproc) : Kernel nproc :=
  { k with pc := fun p => if k.pc p = .sleeping then .woken else k.pc p }

def Kernel.Full (k : Kernel nproc) : Prop :=
  (k.block.length : Int) + (k.outstanding + 1) * maxOpBlocks > logSize

instance (k : Kernel nproc) : Decidable k.Full := inferInstanceAs (Decidable (_ > _))

def beginOp (k : Kernel nproc) (p : Fin nproc) : Kernel nproc :=
  if k.committing then k.setPc p .sleeping
  else if k.Full then k.setPc p .sleeping
  else { k.setPc p .running with outstanding := k.outstanding + 1 }

/-- `log_write` up to its `acquire`. -/
def logWrite (size : Nat) (k : Kernel nproc) (p : Fin nproc) (b : Nat) : Kernel nproc :=
  if k.block.length ≥ logSize ∨ (k.block.length : Int) ≥ size - 1 then
    { k with panicked := some .tooBigATransaction }
  else if k.outstanding < 1 then { k with panicked := some .logWriteOutsideOfTrans }
  else k.setPc p (.logWrite b)

/-- The critical section of `log_write`. -/
def logAppend (k : Kernel nproc) (p : Fin nproc) (b : Nat) : Kernel nproc :=
  if b ∈ k.block then k.setPc p .running
  else if k.block.length < logSize then { k.setPc p .running with block := k.block ++ [b] }
  else { k with panicked := some .overrun }

def endOp (k : Kernel nproc) (p : Fin nproc) : Kernel nproc :=
  let k' := { k with outstanding := k.outstanding - 1 }
  if k'.committing then { k' with panicked := some .logCommitting }
  else if k'.outstanding = 0 then { k'.setPc p .commit with committing := true }
  else (k'.setPc p .user).wakeup

/-- What the process that commits does next: one write of `commit`, or the end of `end_op`. -/
def commitStep (k : Kernel nproc) (p : Fin nproc) : Option (Kernel nproc) :=
  match k.pc p with
  | .commit => some (k.setPc p (if k.block.length > 0 then .writeLog 0 else .finishing))
  | .writeLog tail =>
    some (k.setPc p (if tail < k.block.length then .writeLog (tail + 1) else .writeHead))
  | .writeHead => some (k.setPc p (.installTrans 0))
  | .installTrans tail =>
    some (k.setPc p (if tail < k.block.length then .installTrans (tail + 1) else .eraseHead))
  | .eraseHead => some { k.setPc p .finishing with block := [] }
  | .finishing => some ({ k.setPc p .user with committing := false } : Kernel nproc).wakeup
  | _ => none

inductive Event (nproc : Nat) where
  | beginOp : Fin nproc → Event nproc
  | logWrite : Fin nproc → Nat → Event nproc
  | logAppend : Fin nproc → Event nproc
  | endOp : Fin nproc → Event nproc
  | commitStep : Fin nproc → Event nproc

def kernelStep (lg : Log) (k : Kernel nproc) (e : Event nproc) : Option (Kernel nproc) :=
  if k.panicked ≠ none then none
  else match e with
    | .beginOp p => if k.pc p = .user ∨ k.pc p = .woken then some (beginOp k p) else none
    | .logWrite p b => if k.pc p = .running then some (logWrite lg.size k p b) else none
    | .logAppend p =>
      match k.pc p with
      | .logWrite b => some (logAppend k p b)
      | _ => none
    | .endOp p => if k.pc p = .running then some (endOp k p) else none
    | .commitStep p => commitStep k p

/-- A finished commit: the blocks it was for, its disk writes and the operations in it, each
    with the blocks it logged. -/
structure Commit where
  home : List Nat
  writes : List (Write Nat Block)
  ops : List (List Nat)

structure Books (nproc : Nat) where
  -- The blocks each process has logged since its `begin_op`.
  opBlocks : Fin nproc → List Nat
  -- How many commits had finished at that `begin_op`.
  began : Fin nproc → Nat
  -- The operations that have ended since the last commit.
  ended : List (List Nat)
  -- The writes of the commit under way.
  issued : List (Write Nat Block)
  commits : List Commit

def Books.close (b : Books nproc) (home : List Nat) : Books nproc :=
  { b with commits := b.commits ++ [⟨home, b.issued, b.ended⟩], ended := [], issued := [] }

def Books.issue (b : Books nproc) (w : Write Nat Block) : Books nproc :=
  { b with issued := b.issued ++ [w] }

def record (lg : Log) (k : Kernel nproc) (b : Books nproc) : Event nproc → Books nproc
  | .beginOp p =>
    { b with
      opBlocks := Function.update b.opBlocks p []
      began := Function.update b.began p b.commits.length }
  | .logWrite _ _ => b
  | .logAppend p =>
    match k.pc p with
    | .logWrite x =>
      if x ∈ k.block ∨ k.block.length < logSize then
        { b with opBlocks := Function.update b.opBlocks p ((b.opBlocks p).insert x) }
      else b
    | _ => b
  | .endOp p => { b with ended := b.ended ++ [b.opBlocks p] }
  | .commitStep p =>
    match k.pc p with
    | .commit => if k.block.length > 0 then b else b.close []
    | .writeLog tail =>
      match k.block[tail]? with
      | some x => b.issue ⟨lg.start + tail + 1, fun bread => bread x⟩
      | none => b
    | .writeHead => b.issue (DiskLog.writeHead lg k.block)
    | .installTrans tail =>
      match k.block[tail]? with
      | some x => b.issue ⟨x, fun bread => bread (lg.start + tail + 1)⟩
      | none => b
    | .eraseHead => (b.issue (DiskLog.writeHead lg [])).close k.block
    | _ => b

structure Sys (nproc : Nat) where
  kernel : Kernel nproc
  books : Books nproc

def step (lg : Log) (s : Sys nproc) (e : Event nproc) : Option (Sys nproc) :=
  (kernelStep lg s.kernel e).map fun k => ⟨k, record lg s.kernel s.books e⟩

def start : Sys nproc where
  kernel := ⟨[], 0, false, fun _ => .user, none⟩
  books := ⟨fun _ => [], fun _ => 0, [], [], []⟩

/-- A reading of program points that does not tell `woken` from `sleeping` survives a wakeup. -/
theorem wakeup_reading {α : Sort _} (f : Pc → α) (same : f .woken = f .sleeping)
    (k : Kernel nproc) (p : Fin nproc) : f (k.wakeup.pc p) = f (k.pc p) := by
  unfold Kernel.wakeup
  dsimp only
  split
  · rename_i asleep
    rw [asleep, same]
  · rfl

theorem wakeup_awake (k : Kernel nproc) (p : Fin nproc) : k.wakeup.pc p ≠ .sleeping := by
  unfold Kernel.wakeup
  dsimp only
  split
  · simp
  · assumption

inductive Moves (lg : Log) (k : Kernel nproc) (b : Books nproc) : Event nproc → Sys nproc → Prop
  | sleep {p} (outside : k.pc p = .user ∨ k.pc p = .woken)
      (blocked : k.committing = true ∨ k.Full) :
      Moves lg k b (.beginOp p) ⟨k.setPc p .sleeping, record lg k b (.beginOp p)⟩
  | enter {p} (outside : k.pc p = .user ∨ k.pc p = .woken) (open_ : k.committing = false)
      (room : ¬ k.Full) :
      Moves lg k b (.beginOp p)
        ⟨{ k.setPc p .running with outstanding := k.outstanding + 1 }, record lg k b (.beginOp p)⟩
  | tooBig {p x} (running : k.pc p = .running)
      (full : k.block.length ≥ logSize ∨ (k.block.length : Int) ≥ lg.size - 1) :
      Moves lg k b (.logWrite p x) ⟨{ k with panicked := some .tooBigATransaction }, b⟩
  | outsideOfTrans {p x} (running : k.pc p = .running)
      (room : ¬ (k.block.length ≥ logSize ∨ (k.block.length : Int) ≥ lg.size - 1))
      (none : k.outstanding < 1) :
      Moves lg k b (.logWrite p x) ⟨{ k with panicked := some .logWriteOutsideOfTrans }, b⟩
  | logWrite {p x} (running : k.pc p = .running)
      (room : ¬ (k.block.length ≥ logSize ∨ (k.block.length : Int) ≥ lg.size - 1))
      (within : ¬ k.outstanding < 1) :
      Moves lg k b (.logWrite p x) ⟨k.setPc p (.logWrite x), b⟩
  | absorb {p x} (logging : k.pc p = .logWrite x) (known : x ∈ k.block) :
      Moves lg k b (.logAppend p)
        ⟨k.setPc p .running,
          { b with opBlocks := Function.update b.opBlocks p ((b.opBlocks p).insert x) }⟩
  | append {p x} (logging : k.pc p = .logWrite x) (fresh : x ∉ k.block)
      (room : k.block.length < logSize) :
      Moves lg k b (.logAppend p)
        ⟨{ k.setPc p .running with block := k.block ++ [x] },
          { b with opBlocks := Function.update b.opBlocks p ((b.opBlocks p).insert x) }⟩
  | overrun {p x} (logging : k.pc p = .logWrite x) (fresh : x ∉ k.block)
      (full : ¬ k.block.length < logSize) :
      Moves lg k b (.logAppend p) ⟨{ k with panicked := some .overrun }, b⟩
  | reenter {p} (running : k.pc p = .running) (busy : k.committing = true) :
      Moves lg k b (.endOp p)
        ⟨{ k with outstanding := k.outstanding - 1, panicked := some .logCommitting },
          { b with ended := b.ended ++ [b.opBlocks p] }⟩
  | close {p} (running : k.pc p = .running) (open_ : k.committing = false)
      (last : k.outstanding - 1 = 0) :
      Moves lg k b (.endOp p)
        ⟨{ { k with outstanding := k.outstanding - 1 }.setPc p .commit with committing := true },
          { b with ended := b.ended ++ [b.opBlocks p] }⟩
  | leave {p} (running : k.pc p = .running) (open_ : k.committing = false)
      (more : k.outstanding - 1 ≠ 0) :
      Moves lg k b (.endOp p)
        ⟨({ k with outstanding := k.outstanding - 1 }.setPc p .user).wakeup,
          { b with ended := b.ended ++ [b.opBlocks p] }⟩
  | commit {p} (place : k.pc p = .commit) (nonempty : 0 < k.block.length) :
      Moves lg k b (.commitStep p) ⟨k.setPc p (.writeLog 0), b⟩
  | nothing {p} (place : k.pc p = .commit) (empty : k.block = []) :
      Moves lg k b (.commitStep p) ⟨k.setPc p .finishing, b.close []⟩
  | writeLog {p tail x} (place : k.pc p = .writeLog tail) (at_ : k.block[tail]? = some x) :
      Moves lg k b (.commitStep p)
        ⟨k.setPc p (.writeLog (tail + 1)), b.issue ⟨lg.start + tail + 1, fun bread => bread x⟩⟩
  | logWritten {p tail} (place : k.pc p = .writeLog tail) (done : k.block.length ≤ tail) :
      Moves lg k b (.commitStep p) ⟨k.setPc p .writeHead, b⟩
  | writeHead {p} (place : k.pc p = .writeHead) :
      Moves lg k b (.commitStep p)
        ⟨k.setPc p (.installTrans 0), b.issue (DiskLog.writeHead lg k.block)⟩
  | installTrans {p tail x} (place : k.pc p = .installTrans tail)
      (at_ : k.block[tail]? = some x) :
      Moves lg k b (.commitStep p)
        ⟨k.setPc p (.installTrans (tail + 1)),
          b.issue ⟨x, fun bread => bread (lg.start + tail + 1)⟩⟩
  | installed {p tail} (place : k.pc p = .installTrans tail) (done : k.block.length ≤ tail) :
      Moves lg k b (.commitStep p) ⟨k.setPc p .eraseHead, b⟩
  | eraseHead {p} (place : k.pc p = .eraseHead) :
      Moves lg k b (.commitStep p)
        ⟨{ k.setPc p .finishing with block := [] },
          (b.issue (DiskLog.writeHead lg [])).close k.block⟩
  | reopen {p} (place : k.pc p = .finishing) :
      Moves lg k b (.commitStep p)
        ⟨({ k.setPc p .user with committing := false } : Kernel nproc).wakeup, b⟩

section
variable {lg : Log} {k : Kernel nproc} {b : Books nproc} {p : Fin nproc}

theorem beginOp_moves (outside : k.pc p = .user ∨ k.pc p = .woken) :
    Moves lg k b (.beginOp p) ⟨beginOp k p, record lg k b (.beginOp p)⟩ := by
  unfold beginOp
  split
  · rename_i busy
    exact .sleep outside (Or.inl busy)
  · rename_i open_
    split
    · rename_i full
      exact .sleep outside (Or.inr full)
    · rename_i room
      exact .enter outside (by simpa using open_) room

theorem logWrite_moves {x : Nat} (running : k.pc p = .running) :
    Moves lg k b (.logWrite p x) ⟨logWrite lg.size k p x, record lg k b (.logWrite p x)⟩ := by
  unfold logWrite
  split
  · rename_i full
    exact .tooBig running full
  · rename_i room
    split
    · rename_i none
      exact .outsideOfTrans running room none
    · rename_i within
      exact .logWrite running room within

theorem logAppend_moves {x : Nat} (logging : k.pc p = .logWrite x) :
    Moves lg k b (.logAppend p) ⟨logAppend k p x, record lg k b (.logAppend p)⟩ := by
  unfold logAppend
  simp only [record, logging]
  split
  · rename_i known
    rw [if_pos (Or.inl known)]
    exact .absorb logging known
  · rename_i fresh
    split
    · rename_i room
      rw [if_pos (Or.inr room)]
      exact .append logging fresh room
    · rename_i full
      rw [if_neg (by simp only [fresh, full, or_self, not_false_eq_true])]
      exact .overrun logging fresh full

theorem endOp_moves (running : k.pc p = .running) :
    Moves lg k b (.endOp p) ⟨endOp k p, record lg k b (.endOp p)⟩ := by
  simp only [endOp, record]
  split
  · rename_i busy
    exact .reenter running busy
  · rename_i closed
    have open_ : k.committing = false := by simpa using closed
    split
    · rename_i last
      exact .close running open_ last
    · rename_i more
      exact .leave running open_ more

theorem commitStep_moves {k' : Kernel nproc} (move : commitStep k p = some k') :
    Moves lg k b (.commitStep p) ⟨k', record lg k b (.commitStep p)⟩ := by
  unfold commitStep at move
  cases place : k.pc p with
  | user | sleeping | woken | running | logWrite => simp [place] at move
  | commit =>
    simp only [place, Option.some.injEq] at move
    subst k'
    simp only [record, place]
    by_cases nonempty : k.block.length > 0
    · rw [if_pos nonempty, if_pos nonempty]
      exact .commit place nonempty
    · rw [if_neg nonempty, if_neg nonempty]
      exact .nothing place (List.length_eq_zero_iff.mp (by omega))
  | writeLog tail =>
    simp only [place, Option.some.injEq] at move
    subst k'
    simp only [record, place]
    by_cases left : tail < k.block.length
    · rw [if_pos left, List.getElem?_eq_getElem left]
      exact .writeLog place (List.getElem?_eq_getElem left)
    · have done := Nat.le_of_not_lt left
      rw [if_neg left, List.getElem?_eq_none done]
      exact .logWritten place done
  | writeHead =>
    simp only [place, Option.some.injEq] at move
    subst k'
    simp only [record, place]
    exact .writeHead place
  | installTrans tail =>
    simp only [place, Option.some.injEq] at move
    subst k'
    simp only [record, place]
    by_cases left : tail < k.block.length
    · rw [if_pos left, List.getElem?_eq_getElem left]
      exact .installTrans place (List.getElem?_eq_getElem left)
    · have done := Nat.le_of_not_lt left
      rw [if_neg left, List.getElem?_eq_none done]
      exact .installed place done
  | eraseHead =>
    simp only [place, Option.some.injEq] at move
    subst k'
    simp only [record, place]
    exact .eraseHead place
  | finishing =>
    simp only [place, Option.some.injEq] at move
    subst k'
    simp only [record, place]
    exact .reopen place

end

theorem step_moves {lg : Log} {s t : Sys nproc} {e : Event nproc} (move : step lg s e = some t) :
    Moves lg s.kernel s.books e t := by
  simp only [step, kernelStep, Option.map_eq_some_iff, ne_eq, ite_not] at move
  obtain ⟨k,move,rfl⟩ := move
  split at move
  · cases e with
    | beginOp p =>
      simp only [Option.ite_none_right_eq_some, Option.some.injEq] at move
      obtain ⟨outside,rfl⟩ := move
      exact beginOp_moves outside
    | logWrite p x =>
      simp only [Option.ite_none_right_eq_some, Option.some.injEq] at move
      obtain ⟨running,rfl⟩ := move
      exact logWrite_moves running
    | logAppend p =>
      dsimp only at move
      split at move
      · rename_i x logging
        simp only [Option.some.injEq] at move
        subst k
        exact logAppend_moves logging
      · cases move
    | endOp p =>
      simp only [Option.ite_none_right_eq_some, Option.some.injEq] at move
      obtain ⟨running,rfl⟩ := move
      exact endOp_moves running
    | commitStep p => exact commitStep_moves move
  · cases move

end LogKernel
