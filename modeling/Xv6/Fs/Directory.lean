import Xv6.Fs.Icache

/- Directories and path names: the functions of fs.c from namecmp on. A string or a buffer is the
   list of its bytes; behind the end of the list there is a NUL. -/
namespace FsDirectory
open Bytes FsDisk FsIcache

def strncmp : List UInt8 → List UInt8 → Nat → Int
  | _, _, 0 => 0
  | p, q, n + 1 =>
    if p.headD 0 ≠ 0 ∧ p.headD 0 = q.headD 0 then strncmp p.tail q.tail n
    else (p.headD 0).toNat - (q.headD 0).toNat

def strncpy : List UInt8 → Nat → List UInt8
  | _, 0 => []
  | t, n + 1 => if t.headD 0 = 0 then List.replicate (n + 1) 0 else t.headD 0 :: strncpy t.tail n

def namecmp (s t : List UInt8) : Int := strncmp s t dirsiz

structure Dirent where
  inum : UInt16
  name : List UInt8

def Dirent.bytes (de : Dirent) : List UInt8 := digits 2 de.inum.toNat ++ de.name

def readDirent (bs : List UInt8) : Dirent := ⟨UInt16.ofNat (number (bs.take 2)), bs.drop 2⟩

def direntSize : UInt32 := 16

variable (k : Mount)

def fetchDirent (panic : Stop) (dp : Slot) (off : UInt32) : Op Dirent := do
  match ← readi k dp off direntSize with
  | some bs => if bs.length = 16 then pure (readDirent bs) else stop panic
  | none => stop panic

/-- The loop of dirlookup; there are at most `fuel` entries left. -/
def lookupFrom (dp : Slot) (name : List UInt8) : Nat → UInt32 → Op (Option (Slot × UInt32))
  | 0, _ => pure none
  | fuel + 1, off => do
    if off < (← look dp).din.size then
      let de ← fetchDirent k .dirlookupRead dp off
      if de.inum = 0 then lookupFrom dp name fuel (off + direntSize)
      else if namecmp name de.name = 0 then do
        let ip ← iget de.inum.toNat
        pure (some (ip, off))
      else lookupFrom dp name fuel (off + direntSize)
    else pure none

def entries (v : Dinode) : Nat := (v.size.toNat + 15) / 16

def dirlookup (dp : Slot) (name : List UInt8) : Op (Option (Slot × UInt32)) := do
  let c ← look dp
  if c.din.type ≠ tDir then stop .dirlookupNotDir
  else lookupFrom k dp name (entries c.din) 0

/-- dirlink's loop over the entries. -/
def emptyFrom (dp : Slot) : Nat → UInt32 → Op UInt32
  | 0, off => pure off
  | fuel + 1, off => do
    if off < (← look dp).din.size then
      let de ← fetchDirent k .dirlinkRead dp off
      if de.inum = 0 then pure off else emptyFrom dp fuel (off + direntSize)
    else pure off

/-- The name and the inode number go to the entry at `off`. -/
def storeDirent (panic : Stop) (dp : Slot) (de : Dirent) (off : UInt32) : Op Unit := do
  match ← writei k dp (fun i => de.bytes.getD i 0) off direntSize with
  | some n => if n = direntSize then pure () else stop panic
  | none => stop panic

/-- The result is whether dirlink returns 0. -/
def dirlink (dp : Slot) (name : List UInt8) (inum : Nat) : Op Bool := do
  match ← dirlookup k dp name with
  | some (ip, _) => do
    iput k ip
    pure false
  | none => do
    let c ← look dp
    let off ← emptyFrom k dp (entries c.din) 0
    storeDirent k .dirlink dp ⟨UInt16.ofNat inum, strncpy name dirsiz⟩ off
    pure true

def slash : UInt8 := 47

def skipelem (path : List UInt8) : Option (List UInt8 × List UInt8) :=
  let s := path.dropWhile (· = slash)
  if s.headD 0 = 0 then none
  else
    let name := s.takeWhile fun c => c ≠ slash ∧ c ≠ 0
    some ((s.drop name.length).dropWhile (· = slash), name.take dirsiz)

/-- The loop of namex with the inode it has come to, the rest of the path and the buffer `name`.
    An element is at least one byte long, so `fuel` elements are enough for as many bytes. -/
def namexFrom (parent : Bool) :
    Nat → Slot → List UInt8 → List UInt8 → Op (Option (Slot × List UInt8))
  | 0, _, _, _ => pure none
  | fuel + 1, ip, path, name =>
    match skipelem path with
    | none =>
      if parent then do
        iput k ip
        pure none
      else pure (some (ip, name))
    | some (path, name) => do
      ilock k ip
      if (← look ip).din.type ≠ tDir then
        iunlockput k ip
        pure none
      else if parent ∧ path.headD 0 = 0 then
        -- stop one level early
        iunlock ip
        pure (some (ip, name))
      else match ← dirlookup k ip name with
        | none => do
          iunlockput k ip
          pure none
        | some (next, _) => do
          iunlockput k ip
          namexFrom parent fuel next path name

def rootino : Nat := 1

def namex (cwd : Slot) (path : List UInt8) (parent : Bool) : Op (Option (Slot × List UInt8)) := do
  let ip ← if path.headD 0 = slash then iget rootino else idup cwd
  namexFrom k parent (path.length + 1) ip path []

def namei (cwd : Slot) (path : List UInt8) : Op (Option Slot) := do
  return (← namex k cwd path false).map Prod.fst

def nameiparent (cwd : Slot) (path : List UInt8) : Op (Option (Slot × List UInt8)) :=
  namex k cwd path true

end FsDirectory
