import Mathlib.Data.List.FinRange
import Xv6.Fs.Logged
import Xv6.Lib.Panics

/- The inode cache of fs.c and the functions on cached inodes. A call of the file system runs to
   its end before the next one starts, so a lock that is already taken is held by the caller
   itself and acquiresleep on it never returns. There is one device, ROOTDEV. -/
namespace FsIcache
open FsDisk

structure Inode where
  inum : Nat
  ref : Int
  lock : Bool
  valid : Bool
  -- type, major, minor, nlink, size and addrs
  din : Dinode

abbrev Slot := Fin 50

def slot0 : Slot := ⟨0, by decide⟩

structure Fs where
  disk : Disk
  icache : Slot → Inode
  -- between begin_op and end_op
  op : Bool
  -- the blocks passed to log_write since the last begin_op
  log : List Nat
  -- iput has been called outside of begin_op and end_op
  stray : Bool
  -- the free pages of kalloc
  pages : List Nat

/-- What devsw[major] offers; `none` as a result is -1. -/
structure Device where
  read : Option (UInt32 → Option (List UInt8))
  write : Option ((Nat → UInt8) → UInt32 → Option UInt32)

def ndev : Int := 10

structure Mount where
  sb : Superblock
  devsw : Nat → Device

/-- What a call ends with that does not return: the panics by their functions, a wait for a lock
    that the caller holds itself, and a signed overflow. -/
inductive Stop where
  | igetNoInodes
  | ilock
  | ilockNoType
  | iunlock
  | freeingFreeBlock
  -- balloc's "out of blocks" and bmap's "out of range"
  | bmap
  | iallocNoInodes
  | dirlookupNotDir
  | dirlookupRead
  | dirlinkRead
  | dirlink
  | unlinkNlink
  | isdiremptyRead
  | unlinkWritei
  | createDots
  | createDirlink
  | shortFilewrite
  | asleep
  | overflow
  deriving DecidableEq, Repr

abbrev Op := StateT Fs (Except Stop)

def stop {α : Type} (e : Stop) : Op α := fun _ => .error e

def Fs.modify (s : Fs) (ip : Slot) (c : Inode) : Fs :=
  { s with icache := Function.update s.icache ip c }

/-- The disk and the inode in memory as a function on them left them, and what it logged. -/
def Fs.put (s : Fs) (ip : Slot) (d : Disk) (v : Dinode) (l : List Nat) : Fs :=
  { s.modify ip { s.icache ip with din := v } with disk := d, log := s.log ++ l }

def beginOp : Op Unit := fun s => .ok ((), { s with op := true, log := [] })

def endOp : Op Unit := fun s => .ok ((), { s with op := false })

def kalloc : Op (Option Nat) := fun s =>
  match s.pages with
  | [] => .ok (none, s)
  | p :: ps => .ok (some p, { s with pages := ps })

def iget (inum : Nat) : Op Slot := fun s =>
  match (List.finRange 50).find? fun ip => 0 < (s.icache ip).ref ∧ (s.icache ip).inum = inum with
  | some ip => .ok (ip, s.modify ip { s.icache ip with ref := (s.icache ip).ref + 1 })
  | none =>
    match (List.finRange 50).find? fun ip => (s.icache ip).ref = 0 with
    | some ip => .ok (ip, s.modify ip { s.icache ip with inum := inum, ref := 1, valid := false })
    | none => .error .igetNoInodes

def idup (ip : Slot) : Op Slot := fun s =>
  .ok (ip, s.modify ip { s.icache ip with ref := (s.icache ip).ref + 1 })

variable (k : Mount)

def iupdate (ip : Slot) : Op Unit := fun s =>
  let c := s.icache ip
  .ok ((), { s with
    disk := writeDinode k.sb s.disk c.inum c.din
    log := s.log ++ [FsLog.iblock k.sb c.inum] })

def ilock (ip : Slot) : Op Unit := fun s =>
  let c := s.icache ip
  if c.ref < 1 then .error .ilock
  else if c.lock then .error .asleep
  else if c.valid then .ok ((), s.modify ip { c with lock := true })
  else
    let v := dinode k.sb s.disk c.inum
    if v.type = 0 then .error .ilockNoType
    else .ok ((), s.modify ip { c with lock := true, valid := true, din := v })

def iunlock (ip : Slot) : Op Unit := fun s =>
  let c := s.icache ip
  if c.lock = false ∨ c.ref < 1 then .error .iunlock
  else .ok ((), s.modify ip { c with lock := false })

def iput (ip : Slot) : Op Unit := fun s =>
  let c := s.icache ip
  let s := { s with stray := s.stray || !s.op }
  if c.lock then .error .asleep
  else if c.valid ∧ c.din.nlink = 0 ∧ c.ref = 1 then
    -- inode has no links and no other references: truncate and free
    match FsInode.itrunc k.sb c.inum s.disk c.din with
    | none => .error .freeingFreeBlock
    | some (d, v) =>
      let v := { v with type := 0 }
      .ok ((), { s.modify ip { c with din := v, valid := false, ref := c.ref - 1 } with
        disk := writeDinode k.sb d c.inum v
        log := s.log ++ FsLog.itrunc k.sb c.inum s.disk c.din ++ [FsLog.iblock k.sb c.inum] })
  else .ok ((), s.modify ip { c with ref := c.ref - 1 })

def iunlockput (ip : Slot) : Op Unit := do
  iunlock ip
  iput k ip

def ialloc (type : Int16) : Op Slot := fun s =>
  match FsInode.ialloc k.sb s.disk type with
  | none => .error .iallocNoInodes
  | some (inum, d) => iget inum { s with disk := d, log := s.log ++ [FsLog.iblock k.sb inum] }

def readi (ip : Slot) (off n : UInt32) : Op (Option (List UInt8)) := fun s =>
  let v := (s.icache ip).din
  if v.type = tDev then
    if v.major.toInt < 0 ∨ v.major.toInt ≥ ndev then .ok (none, s)
    else match (k.devsw v.major.toInt.toNat).read with
      | none => .ok (none, s)
      | some read => .ok (read n, s)
  else match FsInode.readi k.sb s.disk v off n with
    | none => .error .bmap
    | some (r, d, w) => .ok (r, s.put ip d w (FsLog.readi k.sb s.disk v off n))

def writei (ip : Slot) (src : Nat → UInt8) (off n : UInt32) : Op (Option UInt32) := fun s =>
  let v := (s.icache ip).din
  if v.type = tDev then
    if v.major.toInt < 0 ∨ v.major.toInt ≥ ndev then .ok (none, s)
    else match (k.devsw v.major.toInt.toNat).write with
      | none => .ok (none, s)
      | some write => .ok (write src n, s)
  else match FsInode.writei k.sb (s.icache ip).inum s.disk v src off n with
    | none => .error .bmap
    | some (r, d, w) =>
      .ok (r, s.put ip d w (FsLog.writei k.sb (s.icache ip).inum s.disk v src off n))

def look (ip : Slot) : Op Inode := fun s => .ok (s.icache ip, s)

def assign (ip : Slot) (f : Dinode → Dinode) : Op Unit := fun s =>
  .ok ((), s.modify ip { s.icache ip with din := f (s.icache ip).din })

end FsIcache
