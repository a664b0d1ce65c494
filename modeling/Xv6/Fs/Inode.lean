import Xv6.Fs.Disk

/- The content of a locked inode: balloc, bfree, bmap, itrunc, readi and writei. A function gets
   the disk and the copy in memory of the inode it works on and returns both; no value is a
   panic of the function itself or of one of these. The panic of log_write is in Fs/Logged:
   writeiLogged and itruncLogged are writei and itrunc with it. -/
namespace FsInode
open Bytes FsDisk

/-- The first block whose bit is clear; no value is panic("balloc: out of blocks"). -/
def balloc (sb : Superblock) (d : Disk) : Option (Nat × Disk) :=
  ((List.range sb.size).find? fun b => !used sb d b).map fun b => (b, zeroBlock (mark sb d b) b)

/-- No value is panic("freeing free block"). -/
def bfree (sb : Superblock) (d : Disk) (b : Nat) : Option Disk :=
  if used sb d b then some (unmark sb d b) else none

def direct (bn : Nat) (h : bn < ndirect) : Fin 13 := ⟨bn, Nat.lt_succ_of_lt h⟩

def indirect : Fin 13 := ⟨ndirect, by decide⟩

/-- bmap's "load indirect block, allocating if necessary". -/
def loadIndirect (sb : Superblock) (d : Disk) (v : Dinode) : Option (Disk × Dinode) :=
  if v.addrs indirect = 0 then
    (balloc sb d).map fun (b, d) => (d, v.setAddr indirect (UInt32.ofNat b))
  else some (d, v)

def bmap (sb : Superblock) (d : Disk) (v : Dinode) (bn : Nat) : Option (Nat × Disk × Dinode) :=
  if h : bn < ndirect then
    if v.addrs (direct bn h) = 0 then
      (balloc sb d).map fun (b, d) => (b, d, v.setAddr (direct bn h) (UInt32.ofNat b))
    else some ((v.addrs (direct bn h)).toNat, d, v)
  else if bn - ndirect < nindirect then do
    let (d, v) ← loadIndirect sb d v
    let a := (v.addrs indirect).toNat
    if entry d a (bn - ndirect) = 0 then
      let (b, d) ← balloc sb d
      some (b, setEntry d a (bn - ndirect) (UInt32.ofNat b), v)
    else some ((entry d a (bn - ndirect)).toNat, d, v)
  else none

/-- itrunc's first loop. -/
def freeDirect (sb : Superblock) : List (Fin 13) → Disk → Dinode → Option (Disk × Dinode)
  | [], d, v => some (d, v)
  | i :: is, d, v =>
    if v.addrs i = 0 then freeDirect sb is d v
    else (bfree sb d (v.addrs i).toNat).bind fun d => freeDirect sb is d (v.setAddr i 0)

/-- itrunc's second loop, over the entries of block `b`. -/
def freeEntries (sb : Superblock) (b : Nat) : List Nat → Disk → Option Disk
  | [], d => some d
  | j :: js, d =>
    if entry d b j = 0 then freeEntries sb b js d
    else (bfree sb d (entry d b j).toNat).bind (freeEntries sb b js)

def itrunc (sb : Superblock) (inum : Nat) (d : Disk) (v : Dinode) : Option (Disk × Dinode) := do
  let (d, v) ← freeDirect sb ((List.finRange 13).take ndirect) d v
  let a := v.addrs indirect
  let (d, v) ← if a = 0 then some (d, v) else do
    let d ← freeEntries sb a.toNat (List.range nindirect) d
    let d ← bfree sb d a.toNat
    some (d, v.setAddr indirect 0)
  let v := { v with size := 0 }
  some (writeDinode sb d inum v, v)

/-- The loop of readi; `fuel` is at least the number of bytes still to read. -/
def readBlocks (sb : Superblock) : Nat → Disk → Dinode → Nat → Nat →
    Option (List UInt8 × Disk × Dinode)
  | 0, d, v, _, _ => some ([], d, v)
  | fuel + 1, d, v, off, n =>
    if n = 0 then some ([], d, v) else do
      let (b, d, v) ← bmap sb d v (off / bsize)
      let m := min n (bsize - off % bsize)
      let (rest, e, w) ← readBlocks sb fuel d v (off + m) (n - m)
      some (load d (bsize * b + off % bsize) m ++ rest, e, w)

/-- readi of an inode that is not a device; `none` is the result -1. -/
def readi (sb : Superblock) (d : Disk) (v : Dinode) (off n : UInt32) :
    Option (Option (List UInt8) × Disk × Dinode) :=
  if off > v.size ∨ off + n < off then some (none, d, v)
  else
    let n := if off + n > v.size then v.size - off else n
    (readBlocks sb n.toNat d v off.toNat n.toNat).map fun (bs, d, v) => (some bs, d, v)

def writeBlocks (sb : Superblock) : Nat → Disk → Dinode → (Nat → UInt8) → Nat → Nat →
    Option (Disk × Dinode)
  | 0, d, v, _, _, _ => some (d, v)
  | fuel + 1, d, v, src, off, n =>
    if n = 0 then some (d, v) else do
      let (b, d, v) ← bmap sb d v (off / bsize)
      let m := min n (bsize - off % bsize)
      let d := store d (bsize * b + off % bsize) ((List.range m).map src)
      writeBlocks sb fuel d v (fun i => src (m + i)) (off + m) (n - m)

/-- writei of an inode that is not a device; `none` is the result -1. -/
def writei (sb : Superblock) (inum : Nat) (d : Disk) (v : Dinode) (src : Nat → UInt8)
    (off n : UInt32) : Option (Option UInt32 × Disk × Dinode) :=
  if off > v.size ∨ off + n < off then some (none, d, v)
  else if off + n > UInt32.ofNat (maxfile * bsize) then some (none, d, v)
  else do
    let (d, v) ← writeBlocks sb n.toNat d v src off.toNat n.toNat
    if n > 0 ∧ off + n > v.size then
      let v := { v with size := off + n }
      some (some n, writeDinode sb d inum v, v)
    else some (some n, d, v)

/-- `memset(dip, 0, sizeof(*dip)); dip->type = type` -/
def fresh (type : Int16) : Dinode := ⟨type, 0, 0, 0, 0, fun _ => 0⟩

/-- ialloc up to its iget: the first inode of type 0. No value is panic("ialloc: no inodes"). -/
def ialloc (sb : Superblock) (d : Disk) (type : Int16) : Option (Nat × Disk) :=
  ((List.range sb.ninodes).find? fun inum => 0 < inum ∧ (dinode sb d inum).type = 0).map fun inum =>
    (inum, writeDinode sb d inum (fresh type))

end FsInode
