import Mathlib.Algebra.BigOperators.Fin
import Xv6.Lib.RingQueue
import Xv6.Lib.RunLaws
import Xv6.Param

/- One pipe of pipe.c and the processes that share it through duplicated descriptors. A step
   is one test, copy, wakeup, acquire or release of a process, so a kill may come between any
   two of them. sleep(chan, &p->lock) gives up the lock and goes to sleep in one step; a
   process that was woken first reacquires the lock, as on its first entry. -/
namespace PipeSystem
open RingQueue Param

def pipeSize : Nat := 512

instance neZeroPipe : NeZero pipeSize := ⟨by decide⟩

inductive End where
  | read | write
  deriving DecidableEq, Repr

structure Pipe where
  data : Fin pipeSize → UInt8
  nread : UInt32
  nwrite : UInt32
  readopen : Bool
  writeopen : Bool

def Pipe.Full (p : Pipe) : Prop := p.nwrite = p.nread + 512

instance (p : Pipe) : Decidable p.Full := inferInstanceAs (Decidable (_ = _))

def Pipe.Empty (p : Pipe) : Prop := p.nread = p.nwrite

instance (p : Pipe) : Decidable p.Empty := inferInstanceAs (Decidable (_ = _))

def Pipe.isOpen (p : Pipe) : End → Bool
  | .read => p.readopen
  | .write => p.writeopen

/-- `p->data[p->nwrite++ % PIPESIZE] = b` -/
def Pipe.store (p : Pipe) (b : UInt8) : Pipe :=
  { p with data := Function.update p.data (slot pipeSize p.nwrite.toNat) b, nwrite := p.nwrite + 1 }

/-- `p->data[p->nread++ % PIPESIZE]`, the byte and the pipe after it. -/
def Pipe.fetch (p : Pipe) : UInt8 × Pipe :=
  (p.data (slot pipeSize p.nread.toNat), { p with nread := p.nread + 1 })

def Pipe.shut (p : Pipe) : End → Pipe
  | .read => { p with readopen := false }
  | .write => { p with writeopen := false }

/-- Where a process is. `addr` are the bytes it has still to write, `n` is how many it still
    asks for. -/
inductive Pc where
  | user
  -- In `pipewrite` or in its sleep, before the lock is acquired.
  | writeCall (addr : List UInt8)
  | writing (addr : List UInt8)
  | writeFull (addr : List UInt8)
  | writeSleepy (addr : List UInt8)
  -- Asleep on `&p->nwrite`.
  | writeSleep (addr : List UInt8)
  | writeDone
  | readCall (n : Nat)
  | reading (n : Nat)
  | readSleepy (n : Nat)
  -- Asleep on `&p->nread`.
  | readSleep (n : Nat)
  | copying (n : Nat)
  | readDone
  | closeCall (e : End)
  | closing (e : End)
  | closeFlagged (e : End)
  | closeDone
  | leaving
  deriving DecidableEq, Repr

/-- What `wakeup` of `&p->nread` (for readers) or `&p->nwrite` does to a process. -/
def wake : End → Pc → Pc
  | .read, .readSleep n => .readCall n
  | .write, .writeSleep addr => .writeCall addr
  | _, c => c

/-- `fd e p` counts the descriptors of end `e` process `p` has, `ref e` is the reference
    count of the file. `stored` and `delivered` are the bytes that went through the pipe. -/
structure State (nproc : Nat) where
  pipe : Pipe
  freed : Bool
  lock : Option (Fin nproc)
  ref : End → Nat
  fd : End → Fin nproc → Nat
  killed : Fin nproc → Bool
  pc : Fin nproc → Pc
  stored : List UInt8
  delivered : List UInt8

variable {nproc : Nat}

def State.setPc (s : State nproc) (p : Fin nproc) (c : Pc) : State nproc :=
  { s with pc := Function.update s.pc p c }

@[simp] theorem State.setPc_self (s : State nproc) (p : Fin nproc) (c : Pc) :
    (s.setPc p c).pc p = c := Function.update_self ..

variable {p : Fin nproc}

@[simp] theorem State.setPc_ne {q : Fin nproc} (ne : q ≠ p) (s : State nproc) (c : Pc) :
    (s.setPc p c).pc q = s.pc q := Function.update_of_ne ne ..

def State.wakeup (s : State nproc) (e : End) : State nproc :=
  { s with pc := fun p => wake e (s.pc p) }

def State.acquire (s : State nproc) (p : Fin nproc) (c : Pc) : Option (State nproc) :=
  if s.lock = none then some { s.setPc p c with lock := some p } else none

def State.release (s : State nproc) (p : Fin nproc) (c : Pc) : State nproc :=
  { s.setPc p c with lock := none }

/-- The next step of process `p` inside `pipewrite`, `piperead` or `pipeclose`. -/
def advance (s : State nproc) (p : Fin nproc) : Option (State nproc) :=
  match s.pc p with
  | .writeCall addr => s.acquire p (.writing addr)
  | .writing [] => some (s.setPc p .writeDone)
  | .writing (b :: addr) =>
    if s.pipe.Full then
      if s.pipe.readopen = false ∨ s.killed p = true then some (s.setPc p .leaving)
      else some (s.setPc p (.writeFull (b :: addr)))
    else some { s.setPc p (.writing addr) with
      pipe := s.pipe.store b, stored := s.stored ++ [b] }
  | .writeFull addr => some ((s.wakeup .read).setPc p (.writeSleepy addr))
  | .writeSleepy addr => some (s.release p (.writeSleep addr))
  | .writeDone => some ((s.wakeup .read).setPc p .leaving)
  | .readCall n => s.acquire p (.reading n)
  | .reading n =>
    if s.pipe.Empty ∧ s.pipe.writeopen = true then
      if s.killed p = true then some (s.setPc p .leaving) else some (s.setPc p (.readSleepy n))
    else some (s.setPc p (.copying n))
  | .readSleepy n => some (s.release p (.readSleep n))
  | .copying 0 => some (s.setPc p .readDone)
  | .copying (n + 1) =>
    if s.pipe.Empty then some (s.setPc p .readDone)
    else some { s.setPc p (.copying n) with
      pipe := s.pipe.fetch.2, delivered := s.delivered ++ [s.pipe.fetch.1] }
  | .readDone => some ((s.wakeup .write).setPc p .leaving)
  | .closeCall e => s.acquire p (.closing e)
  | .closing e => some { s.setPc p (.closeFlagged e) with pipe := s.pipe.shut e }
  | .closeFlagged .write => some ((s.wakeup .read).setPc p .closeDone)
  | .closeFlagged .read => some ((s.wakeup .write).setPc p .closeDone)
  | .closeDone =>
    some { s.release p .user with
      freed := decide (s.pipe.readopen = false ∧ s.pipe.writeopen = false) }
  | .leaving => some (s.release p .user)
  | .user | .writeSleep _ | .readSleep _ => none

/-- `share e p q` is `filedup`, by dup (`q = p`) or by a fork whose child is `q`. -/
inductive Event (nproc : Nat) where
  | read (p : Fin nproc) (n : Nat)
  | write (p : Fin nproc) (addr : List UInt8)
  | close (e : End) (p : Fin nproc)
  | share (e : End) (p q : Fin nproc)
  | kill (p : Fin nproc)
  | run (p : Fin nproc)
  deriving DecidableEq, Repr

def State.recount (s : State nproc) (e : End) (p : Fin nproc) (f : Nat → Nat) : State nproc :=
  { s with
    ref := Function.update s.ref e (f (s.ref e))
    fd := Function.update s.fd e (Function.update (s.fd e) p (f (s.fd e p))) }

def step (s : State nproc) : Event nproc → Option (State nproc)
  | .read p n =>
    if s.pc p = .user ∧ 0 < s.fd .read p then some (s.setPc p (.readCall n)) else none
  | .write p addr =>
    if s.pc p = .user ∧ 0 < s.fd .write p then some (s.setPc p (.writeCall addr)) else none
  | .close e p =>
    -- fileclose: only the last reference goes on to pipeclose
    if s.pc p = .user ∧ 0 < s.fd e p then
      if 0 < s.ref e - 1 then some (s.recount e p (· - 1))
      else some ((s.recount e p (· - 1)).setPc p (.closeCall e))
    else none
  | .share e p q =>
    if s.pc p = .user ∧ 0 < s.fd e p ∧ s.pc q = .user then some (s.recount e q (· + 1)) else none
  | .kill p =>
    some { s with
      killed := Function.update s.killed p true
      pc := Function.update s.pc p (wake .read (wake .write (s.pc p))) }
  | .run p => advance s p

/-- The pipe of `pipealloc` with whatever `kalloc` left in `data`, open for process `p`. -/
def start (data : Fin pipeSize → UInt8) (p : Fin nproc) : State nproc where
  pipe := ⟨data, 0, 0, true, true⟩
  freed := false
  lock := none
  ref _ := 1
  fd _ := Function.update (fun _ => 0) p 1
  killed _ := false
  pc _ := .user
  stored := []
  delivered := []

def entered : Pc → Option Pc
  | .writeCall addr => some (.writing addr)
  | .readCall n => some (.reading n)
  | .closeCall e => some (.closing e)
  | _ => none

def notifies : Pc → Option (End × Pc)
  | .writeFull addr => some (.read, .writeSleepy addr)
  | .writeDone => some (.read, .leaving)
  | .readDone => some (.write, .leaving)
  | .closeFlagged .write => some (.read, .closeDone)
  | .closeFlagged .read => some (.write, .closeDone)
  | _ => none

def dozes : Pc → Option Pc
  | .writeSleepy addr => some (.writeSleep addr)
  | .readSleepy n => some (.readSleep n)
  | _ => none

inductive Turns (s : State nproc) (p : Fin nproc) : Pc → Pc → Prop
  | written : Turns s p (.writing []) .writeDone
  | giveUp (b : UInt8) (addr : List UInt8) (full : s.pipe.Full)
      (hopeless : s.pipe.readopen = false ∨ s.killed p = true) :
      Turns s p (.writing (b :: addr)) .leaving
  | block (b : UInt8) (addr : List UInt8) (full : s.pipe.Full) (opened : s.pipe.readopen = true) :
      Turns s p (.writing (b :: addr)) (.writeFull (b :: addr))
  | desist (n : Nat) : Turns s p (.reading n) .leaving
  | await (n : Nat) (empty : s.pipe.Empty) (opened : s.pipe.writeopen = true) :
      Turns s p (.reading n) (.readSleepy n)
  | begin (n : Nat) : Turns s p (.reading n) (.copying n)
  | copied (n : Nat) : Turns s p (.copying n) .readDone

inductive Moves (s : State nproc) : Event nproc → State nproc → Prop
  | read (p : Fin nproc) (n : Nat) (idle : s.pc p = .user) (has : 0 < s.fd .read p) :
      Moves s (.read p n) (s.setPc p (.readCall n))
  | write (p : Fin nproc) (addr : List UInt8) (idle : s.pc p = .user) (has : 0 < s.fd .write p) :
      Moves s (.write p addr) (s.setPc p (.writeCall addr))
  | drop (e : End) (p : Fin nproc) (idle : s.pc p = .user) (has : 0 < s.fd e p)
      (others : 0 < s.ref e - 1) : Moves s (.close e p) (s.recount e p (· - 1))
  | last (e : End) (p : Fin nproc) (idle : s.pc p = .user) (has : 0 < s.fd e p)
      (alone : s.ref e - 1 = 0) :
      Moves s (.close e p) ((s.recount e p (· - 1)).setPc p (.closeCall e))
  | share (e : End) (p q : Fin nproc) (has : 0 < s.fd e p) (idle : s.pc q = .user) :
      Moves s (.share e p q) (s.recount e q (· + 1))
  | kill (p : Fin nproc) : Moves s (.kill p) { s with
      killed := Function.update s.killed p true
      pc := Function.update s.pc p (wake .read (wake .write (s.pc p))) }
  | enter (p : Fin nproc) {d : Pc} (door : entered (s.pc p) = some d) (free : s.lock = none) :
      Moves s (.run p) { s.setPc p d with lock := some p }
  | turn (p : Fin nproc) {c d : Pc} (at_ : s.pc p = c) (turns : Turns s p c d) :
      Moves s (.run p) (s.setPc p d)
  | store (p : Fin nproc) (b : UInt8) (addr : List UInt8) (at_ : s.pc p = .writing (b :: addr))
      (room : ¬ s.pipe.Full) : Moves s (.run p) { s.setPc p (.writing addr) with
        pipe := s.pipe.store b, stored := s.stored ++ [b] }
  | fetch (p : Fin nproc) (n : Nat) (at_ : s.pc p = .copying (n + 1)) (some_ : ¬ s.pipe.Empty) :
      Moves s (.run p) { s.setPc p (.copying n) with
        pipe := s.pipe.fetch.2, delivered := s.delivered ++ [s.pipe.fetch.1] }
  | notify (p : Fin nproc) {e : End} {d : Pc} (due : notifies (s.pc p) = some (e, d)) :
      Moves s (.run p) ((s.wakeup e).setPc p d)
  | doze (p : Fin nproc) {d : Pc} (tired : dozes (s.pc p) = some d) :
      Moves s (.run p) (s.release p d)
  | shut (p : Fin nproc) (e : End) (at_ : s.pc p = .closing e) :
      Moves s (.run p) { s.setPc p (.closeFlagged e) with pipe := s.pipe.shut e }
  | closed (p : Fin nproc) (at_ : s.pc p = .closeDone) : Moves s (.run p) { s.release p .user with
      freed := decide (s.pipe.readopen = false ∧ s.pipe.writeopen = false) }
  | leave (p : Fin nproc) (at_ : s.pc p = .leaving) : Moves s (.run p) (s.release p .user)

variable {s t : State nproc}

theorem acquire_moves {c : Pc}
    (door : entered (s.pc p) = some c) (move : s.acquire p c = some t) : Moves s (.run p) t := by
  unfold State.acquire at move
  split at move
  · next free => cases move; exact .enter p door free
  · cases move

theorem writing_moves {b : UInt8} {addr : List UInt8}
    (at_ : s.pc p = .writing (b :: addr)) (move : advance s p = some t) : Moves s (.run p) t := by
  simp only [advance, at_] at move
  split at move
  · next full =>
    split at move
    · next hopeless => cases move; exact .turn p at_ (.giveUp b addr full hopeless)
    · next hope =>
      cases move
      exact .turn p at_ (.block b addr full (by simpa using fun h => hope (.inl h)))
  · next room => cases move; exact .store p b addr at_ room

theorem reading_moves {n : Nat} (at_ : s.pc p = .reading n)
    (move : advance s p = some t) : Moves s (.run p) t := by
  simp only [advance, at_] at move
  split at move
  · next nothing =>
    split at move
    · cases move; exact .turn p at_ (.desist n)
    · cases move; exact .turn p at_ (.await n nothing.1 nothing.2)
  · cases move; exact .turn p at_ (.begin n)

theorem copying_moves {n : Nat} (at_ : s.pc p = .copying n)
    (move : advance s p = some t) : Moves s (.run p) t := by
  cases n with
  | zero =>
    simp only [advance, at_, Option.some.injEq] at move
    cases move
    exact .turn p at_ (.copied 0)
  | succ n =>
    simp only [advance, at_] at move
    split at move
    · cases move; exact .turn p at_ (.copied (n + 1))
    · next bytes => cases move; exact .fetch p n at_ bytes

theorem advance_moves (move : advance s p = some t) :
    Moves s (.run p) t := by
  cases at_ : s.pc p with
  | writing addr =>
    cases addr with
    | nil =>
      simp only [advance, at_, Option.some.injEq] at move
      cases move
      exact .turn p at_ .written
    | cons b addr => exact writing_moves at_ move
  | reading n => exact reading_moves at_ move
  | copying n => exact copying_moves at_ move
  | writeCall | readCall | closeCall =>
    simp only [advance, at_] at move
    exact acquire_moves (by simp [at_, entered]) move
  | writeFull | writeDone | readDone =>
    simp only [advance, at_, Option.some.injEq] at move
    cases move
    exact .notify p (by simp [at_, notifies])
  | closeFlagged e =>
    cases e <;>
    · simp only [advance, at_, Option.some.injEq] at move
      cases move
      exact .notify p (by simp [at_, notifies])
  | writeSleepy | readSleepy =>
    simp only [advance, at_, Option.some.injEq] at move
    cases move
    exact .doze p (by simp [at_, dozes])
  | closing e =>
    simp only [advance, at_, Option.some.injEq] at move
    cases move
    exact .shut p e at_
  | closeDone =>
    simp only [advance, at_, Option.some.injEq] at move
    cases move
    exact .closed p at_
  | leaving =>
    simp only [advance, at_, Option.some.injEq] at move
    cases move
    exact .leave p at_
  | user | writeSleep | readSleep => simp [advance, at_] at move

theorem step_moves {e : Event nproc} (move : step s e = some t) :
    Moves s e t := by
  cases e with
  | run p => exact advance_moves move
  | kill p => cases move; exact .kill p
  | read p n =>
    simp only [step, Option.ite_none_right_eq_some, Option.some.injEq] at move
    obtain ⟨⟨idle,has⟩,rfl⟩ := move
    exact .read p n idle has
  | write p addr =>
    simp only [step, Option.ite_none_right_eq_some, Option.some.injEq] at move
    obtain ⟨⟨idle,has⟩,rfl⟩ := move
    exact .write p addr idle has
  | share e p q =>
    simp only [step, Option.ite_none_right_eq_some, Option.some.injEq] at move
    obtain ⟨⟨_,has,idle⟩,rfl⟩ := move
    exact .share e p q has idle
  | close e p =>
    simp only [step, Option.ite_none_right_eq_some] at move
    obtain ⟨⟨idle,has⟩,move⟩ := move
    split at move
    · next others => cases move; exact .drop e p idle has others
    · next alone => cases move; exact .last e p idle has (by omega)

end PipeSystem
