import Mathlib.Algebra.GroupWithZero.Nat
import Xv6.Lib.LinkedQueue
import Xv6.Lib.RunLaws

/- The two disk drivers. ide.c puts requests on a queue, starts the disk on the first one and
   lets the interrupt finish it; memide.c copies to or from memory at once. Each of `n` buffers
   is the subject of one call of iderw. What a process or the interrupt handler does while it
   holds idelock is one step; sleep(b, &idelock) ends such a step. A call that has been woken, or
   whose process has been killed, tests the flags again. -/
namespace IdeDriver
open LinkedQueue

def fssize : Nat := 1000

abbrev Data := Fin 512 → UInt8

structure Buf where
  valid : Bool
  dirty : Bool
  dev : UInt32
  blockno : UInt32
  -- held by the process that calls iderw?
  lock : Bool
  data : Data

def Buf.done (b : Buf) : Bool := b.valid && !b.dirty

/-- What outb has put into 0x1f2 to 0x1f6. -/
structure Regs where
  count : UInt8
  low : UInt8
  mid : UInt8
  high : UInt8
  select : UInt8

/-- The 28 bits of address the disk takes from its registers. -/
def Regs.sector (r : Regs) : Nat :=
  r.low.toNat + 2 ^ 8 * r.mid.toNat + 2 ^ 16 * r.high.toNat + 2 ^ 24 * (r.select.toNat % 16)

def Regs.drive (r : Regs) : Bool := r.select.toNat / 16 % 2 = 1

def regs (b : Buf) : Regs where
  count := 1
  low := (b.blockno &&& 0xff).toUInt8
  mid := ((b.blockno >>> 8) &&& 0xff).toUInt8
  high := ((b.blockno >>> 16) &&& 0xff).toUInt8
  select := ((0xe0 : UInt32) ||| ((b.dev &&& 1) <<< 4) ||| ((b.blockno >>> 24) &&& 0x0f)).toUInt8

/-- What the disk is doing. In `read` and `written` it has raised its interrupt. -/
inductive Phase where
  | idle
  | reading (drive : Bool) (sector : Nat)
  | writing (drive : Bool) (sector : Nat) (data : Data)
  | read (data : Data)
  | written

structure Device where
  disk : Bool → Nat → Data
  phase : Phase

def Device.busy (d : Device) : Bool :=
  match d.phase with
  | .reading .. | .writing .. => true
  | _ => false

def set (m : Nat → Data) (i : Nat) (x : Data) : Nat → Data := Function.update m i x

def Device.complete (d : Device) : Option Device :=
  match d.phase with
  | .reading drive sector => some { d with phase := .read (d.disk drive sector) }
  | .writing drive sector data =>
    some
      { disk := Function.update d.disk drive (set (d.disk drive) sector data)
        phase := .written }
  | _ => none

inductive Call where
  | before | asleep | woken | returned
  deriving DecidableEq, Repr

/-- `queued`, `started` and `finished` record the requests in the order of these events. -/
structure State (n : Nat) where
  buf : Fin n → Buf
  qnext : Fin n → Option (Fin n)
  idequeue : Option (Fin n)
  havedisk1 : Bool
  device : Device
  call : Fin n → Call
  queued : List (Fin n)
  started : List (Fin n)
  finished : List (Fin n)

variable {n : Nat}

def idestart (s : State n) (b : Fin n) : Option (State n) :=
  if fssize ≤ (s.buf b).blockno.toNat then none
  else if s.device.busy then none
  else
    let r := regs (s.buf b)
    let phase := if (s.buf b).dirty then Phase.writing r.drive r.sector (s.buf b).data
      else Phase.reading r.drive r.sector
    some { s with device := { s.device with phase := phase }, started := s.started ++ [b] }

/-- One test of iderw's loop. -/
def wait (s : State n) (b : Fin n) : State n :=
  { s with call := Function.update s.call b (if (s.buf b).done then .returned else .asleep) }

/-- iderw up to its first sleep. -/
def iderw (s : State n) (b : Fin n) : Option (State n) :=
  if (s.buf b).lock = false then none
  else if (s.buf b).done then none
  else if (s.buf b).dev ≠ 0 ∧ s.havedisk1 = false then none
  else do
    let (head, next) ← append n (Function.update s.qnext b none) s.idequeue b
    let s := { s with idequeue := head, qnext := next, queued := s.queued ++ [b] }
    let s ← if s.idequeue = some b then idestart s b else some s
    some (wait s b)

def Device.insl (d : Device) : Option Data :=
  match d.phase with
  | .read data => some data
  | _ => none

def wakeup (s : State n) (b : Fin n) : State n :=
  { s with call := Function.update s.call b (if s.call b = .asleep then .woken else s.call b) }

/-- ideintr with the buffer `b` it took from the queue and its data. -/
def idedone (s : State n) (b : Fin n) (data : Data) : State n :=
  wakeup { s with
    idequeue := s.qnext b
    buf := Function.update s.buf b { s.buf b with data := data, valid := true, dirty := false }
    device := { s.device with phase := .idle }
    finished := s.finished ++ [b] } b

def ideintr (s : State n) : Option (State n) :=
  match s.idequeue with
  | none => some s
  | some b =>
    (if (s.buf b).dirty then some (s.buf b).data else s.device.insl).bind fun data =>
      -- start disk on next buf in queue
      match s.qnext b with
      | none => some (idedone s b data)
      | some c => idestart (idedone s b data) c

inductive Event (n : Nat) where
  | enter (b : Fin n)
  | resume (b : Fin n)
  | complete
  | intr
  deriving DecidableEq, Repr

/-- A disk that is busy raises no interrupt. -/
def step (s : State n) : Event n → Option (State n)
  | .enter b => if s.call b = .before then iderw s b else none
  | .resume b => if s.call b = .asleep ∨ s.call b = .woken then some (wait s b) else none
  | .complete => s.device.complete.map fun d => { s with device := d }
  | .intr => if s.device.busy then none else ideintr s

def start (disk : Bool → Nat → Data) (buf : Fin n → Buf) : State n where
  buf := buf
  qnext _ := none
  idequeue := none
  havedisk1 := true
  device := ⟨disk, .idle⟩
  call _ := .before
  queued := []
  started := []
  finished := []

/-- memide.c's iderw, with `disksize` blocks of memory at `memdisk`. -/
def memiderw (disksize : Nat) (memdisk : Nat → Data) (b : Buf) : Option ((Nat → Data) × Buf) :=
  if b.lock = false then none
  else if b.done then none
  else if b.dev ≠ 1 then none
  else if disksize ≤ b.blockno.toNat then none
  else if b.dirty then
    some (set memdisk b.blockno.toNat b.data, { b with dirty := false, valid := true })
  else some (memdisk, { b with data := memdisk b.blockno.toNat, valid := true })

def memRun (disksize : Nat) : List (Fin n) → (Nat → Data) × (Fin n → Buf) →
    Option ((Nat → Data) × (Fin n → Buf))
  | [], m => some m
  | b :: bs, (memdisk, buf) =>
    (memiderw disksize memdisk (buf b)).bind fun (memdisk, c) =>
      memRun disksize bs (memdisk, Function.update buf b c)

end IdeDriver
