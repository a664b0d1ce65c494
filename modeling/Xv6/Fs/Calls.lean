import Xv6.Fs.Directory

/- The system calls of sysfile.c on names, and file.c on open inodes. A result is false or none
   where the source returns -1 or a null pointer. -/
namespace FsCalls
open FsDisk FsIcache FsDirectory

variable (k : Mount) (cwd : Slot)

def dot : List UInt8 := [46]

def dotdot : List UInt8 := [46, 46]

def createDots (ip dp : Slot) : Op Unit := do
  assign dp fun v => { v with nlink := v.nlink + 1 }
  iupdate k dp
  if ← dirlink k ip dot (← look ip).inum then
    if ← dirlink k ip dotdot (← look dp).inum then pure ()
    else stop .createDots
  else stop .createDots

def create (path : List UInt8) (type major minor : Int16) : Op (Option Slot) := do
  match ← nameiparent k cwd path with
  | none => pure none
  | some (dp, name) => do
    ilock k dp
    match ← dirlookup k dp name with
    | some (ip, _) => do
      iunlockput k dp
      ilock k ip
      if type = tFile ∧ (← look ip).din.type = tFile then pure (some ip)
      else
        iunlockput k ip
        pure none
    | none => do
      let ip ← ialloc k type
      ilock k ip
      assign ip fun v => { v with major := major, minor := minor, nlink := 1 }
      iupdate k ip
      if type = tDir then createDots k ip dp else pure ()
      if ← dirlink k dp name (← look ip).inum then
        iunlockput k dp
        pure (some ip)
      else stop .createDirlink

/-- The second half of sys_link: the entry for the inode `ip`. -/
def linkName (ip : Slot) (new : List UInt8) : Op Bool := do
  match ← nameiparent k cwd new with
  | none => pure false
  | some (dp, name) => do
    ilock k dp
    let linked ← dirlink k dp name (← look ip).inum
    iunlockput k dp
    pure linked

def link (old new : List UInt8) : Op Bool := do
  beginOp
  match ← namei k cwd old with
  | none => do
    endOp
    pure false
  | some ip => do
    ilock k ip
    if (← look ip).din.type = tDir then
      iunlockput k ip
      endOp
      pure false
    else
      assign ip fun v => { v with nlink := v.nlink + 1 }
      iupdate k ip
      iunlock ip
      if ← linkName k cwd ip new then
        iput k ip
        endOp
        pure true
      else
        ilock k ip
        assign ip fun v => { v with nlink := v.nlink - 1 }
        iupdate k ip
        iunlockput k ip
        endOp
        pure false

/-- isdirempty's loop. -/
def emptyDirFrom (dp : Slot) : Nat → UInt32 → Op Bool
  | 0, _ => pure true
  | fuel + 1, off => do
    if off < (← look dp).din.size then
      let de ← fetchDirent k .isdiremptyRead dp off
      if de.inum ≠ 0 then pure false else emptyDirFrom dp fuel (off + direntSize)
    else pure true

def isdirempty (dp : Slot) : Op Bool := do
  emptyDirFrom k dp (entries (← look dp).din) (2 * direntSize)

/-- The entry at `off` is overwritten with zeros. -/
def clearDirent (dp : Slot) (off : UInt32) : Op Unit :=
  storeDirent k .unlinkWritei dp ⟨0, List.replicate dirsiz 0⟩ off

def unlink (path : List UInt8) : Op Bool := do
  beginOp
  match ← nameiparent k cwd path with
  | none => do
    endOp
    pure false
  | some (dp, name) => do
    ilock k dp
    if namecmp name dot = 0 ∨ namecmp name dotdot = 0 then
      iunlockput k dp
      endOp
      pure false
    else match ← dirlookup k dp name with
      | none => do
        iunlockput k dp
        endOp
        pure false
      | some (ip, off) => do
        ilock k ip
        if (← look ip).din.nlink < 1 then stop .unlinkNlink
        else
          let dir := (← look ip).din.type = tDir
          let empty ← if dir then isdirempty k ip else pure true
          if !empty then
            iunlockput k ip
            iunlockput k dp
            endOp
            pure false
          else
            clearDirent k dp off
            if dir then
              assign dp fun v => { v with nlink := v.nlink - 1 }
              iupdate k dp
            else pure ()
            iunlockput k dp
            assign ip fun v => { v with nlink := v.nlink - 1 }
            iupdate k ip
            iunlockput k ip
            endOp
            pure true

structure File where
  readable : Bool
  writable : Bool
  ip : Slot
  off : UInt32

def maxChunk : Nat := 1536

/-- filewrite's loop: the bytes written and the offset it ends with. -/
def writeChunks (ip : Slot) (addr : Nat → UInt8) (n : Int) : Nat → Nat → UInt32 → Op (Nat × UInt32)
  | 0, i, off => pure (i, off)
  | fuel + 1, i, off =>
    if (i : Int) < n then do
      let n1 := min (n - i) maxChunk
      beginOp
      ilock k ip
      let r ← writei k ip (fun j => addr (i + j)) off (UInt32.ofNat n1.toNat)
      iunlock ip
      endOp
      match r with
      | none => pure (i, off)
      | some r =>
        if (r.toNat : Int) ≠ n1 then stop .shortFilewrite
        else writeChunks ip addr n fuel (i + r.toNat) (off + r)
    else pure (i, off)

/-- The result and the file as filewrite leaves it. -/
def filewrite (f : File) (addr : Nat → UInt8) (n : Int) : Op (Int × File) :=
  if f.writable then do
    let (i, off) ← writeChunks k f.ip addr n n.toNat 0 f.off
    pure (if (i : Int) = n then n else -1, { f with off := off })
  else pure (-1, f)

def fileInodeExists (path : List UInt8) : Op Bool := do
  match ← namei k cwd path with
  | none => pure false
  | some ip => do
    -- the inode is not locked here, so the type may be that of another inode
    pure (decide ((← look ip).din.type = tFile))

/-- The loop that appends zeros; the results of writei are not looked at. -/
def growFrom (ip : Slot) (length : Int) : Nat → Int → Op Unit
  | 0, _ => pure ()
  | fuel + 1, i =>
    if i < length then do
      let n := min (length - i) bsize
      let _ ← writei k ip (fun _ => 0) (UInt32.ofNat i.toNat) (UInt32.ofNat n.toNat)
      if i + bsize ≥ 2147483648 then stop .overflow else growFrom ip length fuel (i + bsize)
    else pure ()

/-- What change_file_size does with the locked inode. -/
def resize (ip : Slot) (length : Int) : Op Unit := do
  let size := (← look ip).din.size
  if (size.toNat : Int) < length then
    -- without a free page the zeros go to address 0, which is the user's
    let _ ← kalloc
    growFrom k ip length ((length - size.toNat).toNat / bsize + 1) size.toNat
    assign ip fun v => { v with size := UInt32.ofNat length.toNat }
    iupdate k ip
  else if (size.toNat : Int) > length then
    assign ip fun v => { v with size := UInt32.ofNat length.toNat }
    iupdate k ip
  else pure ()

def changeFileSize (path : List UInt8) (length : Int) : Op Int := do
  if length < 0 then pure (-1)
  else if ← fileInodeExists k cwd path then
    beginOp
    match ← namei k cwd path with
    | none => stop .ilock
    | some ip => do
      ilock k ip
      resize k ip length
      iunlock ip
      endOp
      pure 0
  else pure (-1)

end FsCalls
