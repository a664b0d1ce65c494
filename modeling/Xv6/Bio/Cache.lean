import Mathlib.Data.List.FinRange
import Mathlib.Logic.Function.Basic
import Xv6.Lib.LinkedRing
import Xv6.Lib.RunLaws
import Xv6.Param

/- The buffer cache of bio.c over the disks of ide.c. A call of bread up to its brelse is
   followed separately, so a process that holds two buffers makes two calls. What runs under
   bcache.lock is one step; the sleeplock of a buffer and the disk transfer of iderw are steps
   of their own. A commit of the log is calls like any other: it reads blocks, copies between
   buffers it holds, and writes them with bwrite. -/
namespace BufferCache
open LinkedRing

def fsSize : Nat := 1000

structure Buf (ncall : Nat) (α : Type) where
  valid : Bool
  dirty : Bool
  dev : Nat
  blockno : Nat
  -- the call that holds the sleeplock
  lock : Option (Fin ncall)
  refcnt : Nat
  data : α

inductive Stage where
  | locking                   -- in bget's acquiresleep
  | reading                   -- in bread, with the buffer locked
  | holding (changed : Bool)  -- bread has returned; changed and not yet written?
  | writing                   -- in bwrite's iderw
  | leaving                   -- in brelse, after releasesleep
  deriving DecidableEq, Repr

structure Call (nbuf : Nat) where
  stage : Stage
  dev : Nat
  blockno : Nat
  b : Fin nbuf
  deriving DecidableEq

/-- The node `none` of the list is bcache.head. Beside the cache and the disks stands the plain
    map of what was written last to each block. -/
structure State (nbuf ncall : Nat) (α : Type) where
  buf : Fin nbuf → Buf ncall α
  links : Links (Option (Fin nbuf))
  call : Fin ncall → Option (Call nbuf)
  havedisk1 : Bool
  disk : Nat → Nat → α
  written : Nat → Nat → α

variable {nbuf ncall : Nat} {α : Type}

def set (m : Nat → Nat → α) (i j : Nat) (a : α) : Nat → Nat → α :=
  Function.update m i (Function.update (m i) j a)

theorem set_apply (m : Nat → Nat → α) (i j : Nat) (a : α) (k l : Nat) :
    set m i j a k l = if k = i ∧ l = j then a else m k l := by
  by_cases first : k = i
  · subst first
    simp [set, Function.update_apply]
  · simp [set, first]

def State.modify (s : State nbuf ncall α) (b : Fin nbuf) (c : Buf ncall α) : State nbuf ncall α :=
  { s with buf := Function.update s.buf b c }

def State.goto (s : State nbuf ncall α) (p : Fin ncall) (x : Option (Call nbuf)) :
    State nbuf ncall α :=
  { s with call := Function.update s.call p x }

/-- The loops of binit over the array and its zeroed buffers. -/
def binit (zero : α) (havedisk1 : Bool) (disk : Nat → Nat → α) : State nbuf ncall α where
  buf _ := ⟨false, false, 0, 0, none, 0, zero⟩
  links := ((List.finRange nbuf).map some).foldl (fun k b => k.insert none b)
    ⟨fun _ => none, fun _ => none⟩
  call _ := none
  havedisk1 := havedisk1
  disk := disk
  written dev blockno := disk (dev % 2) blockno

/-- bget's two loops: the buffer of the block, or else the one to recycle. -/
def cached (s : State nbuf ncall α) (dev blockno : Nat) : Option (Fin nbuf) :=
  (scan s.links.next none (fun v => v.any fun b => (s.buf b).dev = dev ∧
    (s.buf b).blockno = blockno)
    (nbuf + 1) (s.links.next none)).join

def unused (s : State nbuf ncall α) : Option (Fin nbuf) :=
  (scan s.links.prev none (fun v => v.any fun b => (s.buf b).refcnt = 0 ∧ (s.buf b).dirty = false)
    (nbuf + 1) (s.links.prev none)).join

/-- bget up to its acquiresleep; no value is panic("bget: no buffers"). -/
def bget (s : State nbuf ncall α) (p : Fin ncall) (dev blockno : Nat) :
    Option (State nbuf ncall α) :=
  match cached s dev blockno with
  | some b => some ((s.modify b { s.buf b with refcnt := (s.buf b).refcnt + 1 }).goto p
      (some ⟨.locking, dev, blockno, b⟩))
  | none => (unused s).map fun b =>
      (s.modify b { s.buf b with dev := dev, blockno := blockno, valid := false, dirty := false,
                                 refcnt := 1 }).goto p
        (some ⟨.locking, dev, blockno, b⟩)

/-- iderw by call `p`: no value is one of its panics or idestart's. -/
def iderw (s : State nbuf ncall α) (p : Fin ncall) (b : Fin nbuf) : Option (State nbuf ncall α) :=
  let c := s.buf b
  if c.lock ≠ some p then none
  else if c.valid ∧ ¬ c.dirty then none
  else if c.dev ≠ 0 ∧ ¬ s.havedisk1 then none
  else if fsSize ≤ c.blockno then none
  else if c.dirty then
    some ({ s with disk := set s.disk (c.dev % 2) c.blockno c.data }.modify b
      { c with valid := true, dirty := false })
  else some (s.modify b { c with valid := true, data := s.disk (c.dev % 2) c.blockno })

inductive Event (ncall : Nat) (α : Type) where
  | bget (p : Fin ncall) (dev blockno : Nat)
  | acquiresleep (p : Fin ncall)
  | bread (p : Fin ncall)
  | modify (p : Fin ncall) (data : α)
  | bwrite (p : Fin ncall)
  | iderw (p : Fin ncall)
  | logWrite (p : Fin ncall)
  | brelse (p : Fin ncall)
  | putBack (p : Fin ncall)

/-- The rest of brelse, under bcache.lock. -/
def putBack (s : State nbuf ncall α) (b : Fin nbuf) : State nbuf ncall α :=
  let s := s.modify b { s.buf b with refcnt := (s.buf b).refcnt - 1 }
  if (s.buf b).refcnt = 0 then { s with links := (s.links.unlink (some b)).insert none (some b) }
  else s

def advance (s : State nbuf ncall α) (p : Fin ncall) (x : Call nbuf) :
    Event ncall α → Option (State nbuf ncall α)
  | .acquiresleep _ =>
    if x.stage = .locking ∧ (s.buf x.b).lock = none then
      some ((s.modify x.b { s.buf x.b with lock := some p }).goto p
        (some { x with stage := .reading }))
    else none
  | .bread _ =>
    if x.stage = .reading then
      (if (s.buf x.b).valid then some s else iderw s p x.b).map
        fun t => t.goto p (some { x with stage := .holding false })
    else none
  | .modify _ data =>
    match x.stage with
    | .holding _ =>
      some ({ s with written := set s.written x.dev x.blockno data }.modify x.b
        { s.buf x.b with data := data } |>.goto p (some { x with stage := .holding true }))
    | _ => none
  | .bwrite _ =>
    match x.stage with
    | .holding _ =>
      if (s.buf x.b).lock = some p then
        some ((s.modify x.b { s.buf x.b with dirty := true }).goto p
          (some { x with stage := .writing }))
      else none
    | _ => none
  | .iderw _ =>
    if x.stage = .writing then
      (iderw s p x.b).map fun t => t.goto p (some { x with stage := .holding false })
    else none
  | .logWrite _ =>
    match x.stage with
    | .holding _ =>
      some ((s.modify x.b { s.buf x.b with dirty := true }).goto p
        (some { x with stage := .holding false }))
    | _ => none
  | .brelse _ =>
    -- a changed buffer goes through bwrite or log_write first
    if x.stage = .holding false ∧ (s.buf x.b).lock = some p then
      some ((s.modify x.b { s.buf x.b with lock := none }).goto p
        (some { x with stage := .leaving }))
    else none
  | .putBack _ => if x.stage = .leaving then some ((putBack s x.b).goto p none) else none
  | .bget .. => none

def Event.call : Event ncall α → Fin ncall
  | .bget p _ _ | .acquiresleep p | .bread p | .modify p _ | .bwrite p | .iderw p | .logWrite p
  | .brelse p | .putBack p => p

def step (s : State nbuf ncall α) (e : Event ncall α) : Option (State nbuf ncall α) :=
  match s.call e.call, e with
  | none, .bget p dev blockno => bget s p dev blockno
  | none, _ => none
  | some x, e => advance s e.call x e

inductive Transfer (s : State nbuf ncall α) (b : Fin nbuf) : State nbuf ncall α → Prop
  | write (dirty : (s.buf b).dirty = true) :
      Transfer s b
        ({ s with disk := set s.disk ((s.buf b).dev % 2) (s.buf b).blockno (s.buf b).data }.modify b
        { s.buf b with valid := true, dirty := false })
  | read (clean : (s.buf b).dirty = false) :
      Transfer s b (s.modify b { s.buf b with
        valid := true, data := s.disk ((s.buf b).dev % 2) (s.buf b).blockno })

variable {s t : State nbuf ncall α}

theorem iderw_transfer {p : Fin ncall} {b : Fin nbuf}
    (move : iderw s p b = some t) : Transfer s b t := by
  simp only [iderw, Option.ite_none_left_eq_some] at move
  obtain ⟨-,-,-,-,move⟩ := move
  split at move
  · cases move
    exact .write ‹_›
  · cases move
    exact .read (Bool.eq_false_iff.mpr ‹_›)

inductive Moves (s : State nbuf ncall α) : Event ncall α → State nbuf ncall α → Prop
  | hit (p dev blockno b) (idle : s.call p = none) (found : cached s dev blockno = some b) :
      Moves s (.bget p dev blockno)
        ((s.modify b { s.buf b with refcnt := (s.buf b).refcnt + 1 }).goto p
          (some ⟨.locking, dev, blockno, b⟩))
  | recycle (p dev blockno b) (idle : s.call p = none) (missing : cached s dev blockno = none)
      (free : unused s = some b) :
      Moves s (.bget p dev blockno)
        ((s.modify b { s.buf b with
            dev := dev, blockno := blockno, valid := false, dirty := false, refcnt := 1 }).goto p
          (some ⟨.locking, dev, blockno, b⟩))
  | lock (p x) (at_ : s.call p = some x) (stage : x.stage = .locking)
      (free : (s.buf x.b).lock = none) :
      Moves s (.acquiresleep p) ((s.modify x.b { s.buf x.b with lock := some p }).goto p
        (some { x with stage := .reading }))
  | present (p x) (at_ : s.call p = some x) (stage : x.stage = .reading)
      (valid : (s.buf x.b).valid = true) :
      Moves s (.bread p) (s.goto p (some { x with stage := .holding false }))
  | fill (p x t) (at_ : s.call p = some x) (stage : x.stage = .reading)
      (stale : (s.buf x.b).valid = false) (done : Transfer s x.b t) :
      Moves s (.bread p) (t.goto p (some { x with stage := .holding false }))
  | change (p x c data) (at_ : s.call p = some x) (stage : x.stage = .holding c) :
      Moves s (.modify p data) ({ s with written := set s.written x.dev x.blockno data }.modify x.b
        { s.buf x.b with data := data } |>.goto p (some { x with stage := .holding true }))
  | bwrite (p x c) (at_ : s.call p = some x) (stage : x.stage = .holding c) :
      Moves s (.bwrite p) ((s.modify x.b { s.buf x.b with dirty := true }).goto p
        (some { x with stage := .writing }))
  | flush (p x t) (at_ : s.call p = some x) (stage : x.stage = .writing)
      (done : Transfer s x.b t) :
      Moves s (.iderw p) (t.goto p (some { x with stage := .holding false }))
  | logWrite (p x c) (at_ : s.call p = some x) (stage : x.stage = .holding c) :
      Moves s (.logWrite p) ((s.modify x.b { s.buf x.b with dirty := true }).goto p
        (some { x with stage := .holding false }))
  | brelse (p x) (at_ : s.call p = some x) (stage : x.stage = .holding false) :
      Moves s (.brelse p) ((s.modify x.b { s.buf x.b with lock := none }).goto p
        (some { x with stage := .leaving }))
  | putBack (p x) (at_ : s.call p = some x) (stage : x.stage = .leaving) :
      Moves s (.putBack p) ((putBack s x.b).goto p none)

theorem bget_moves {p : Fin ncall} {dev blockno : Nat}
    (idle : s.call p = none) (move : bget s p dev blockno = some t) :
    Moves s (.bget p dev blockno) t := by
  simp only [bget] at move
  split at move
  · cases move
    exact .hit p dev blockno _ idle ‹_›
  · obtain ⟨b,free,rfl⟩ := Option.map_eq_some_iff.mp move
    exact .recycle p dev blockno b idle ‹_› free

theorem advance_moves {e : Event ncall α} {x : Call nbuf}
    (at_ : s.call e.call = some x) (move : advance s e.call x e = some t) : Moves s e t := by
  cases e with
  | bget p dev blockno => cases move
  | acquiresleep p =>
    simp only [advance, Option.ite_none_right_eq_some, Option.some.injEq] at move
    obtain ⟨⟨stage,free⟩,rfl⟩ := move
    exact .lock p x at_ stage free
  | bread p =>
    simp only [advance, Option.ite_none_right_eq_some, Option.map_eq_some_iff] at move
    obtain ⟨stage,u,done,rfl⟩ := move
    split at done
    · cases done
      exact .present p x at_ stage ‹_›
    · exact .fill p x u at_ stage (Bool.eq_false_iff.mpr ‹_›) (iderw_transfer done)
  | modify p data =>
    simp only [advance] at move
    split at move
    · cases move
      exact .change p x _ data at_ ‹_›
    · cases move
  | bwrite p =>
    simp only [advance] at move
    split at move
    · simp only [Option.ite_none_right_eq_some, Option.some.injEq] at move
      obtain ⟨-,rfl⟩ := move
      exact .bwrite p x _ at_ ‹_›
    · cases move
  | iderw p =>
    simp only [advance, Option.ite_none_right_eq_some, Option.map_eq_some_iff] at move
    obtain ⟨stage,u,done,rfl⟩ := move
    exact .flush p x u at_ stage (iderw_transfer done)
  | logWrite p =>
    simp only [advance] at move
    split at move
    · cases move
      exact .logWrite p x _ at_ ‹_›
    · cases move
  | brelse p =>
    simp only [advance, Option.ite_none_right_eq_some, Option.some.injEq] at move
    obtain ⟨⟨stage,-⟩,rfl⟩ := move
    exact .brelse p x at_ stage
  | putBack p =>
    simp only [advance, Option.ite_none_right_eq_some, Option.some.injEq] at move
    obtain ⟨stage,rfl⟩ := move
    exact .putBack p x at_ stage

theorem step_moves {e : Event ncall α} (move : step s e = some t) :
    Moves s e t := by
  simp only [step] at move
  split at move
  · exact bget_moves ‹_› move
  · cases move
  · exact advance_moves ‹_› move

end BufferCache
