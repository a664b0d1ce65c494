import Mathlib.Data.List.FinRange
import Mathlib.Order.Interval.Finset.Nat
import Xv6.Fs.Files
import Xv6.Fs.Logged

/- itrunc gives back every block of an inode. While it runs, an entry of the indirect block still
   has the number of a block that is free already, so what the inode holds is followed apart from
   the disk. -/
namespace FsOwner
open Bytes FsDisk FsInode FsContent FsLog Ownership

variable {sb : Superblock} {d e f : Disk} {v w : Dinode} {T : Nat → Dinode} {i j b : Nat}
  {p : Nat × Place} {h : Nat × Place → Option Nat}

def Maps (sb : Superblock) (d : Disk) (h : Nat × Place → Option Nat) : Prop :=
  Exact (fun b => b < nmeta sb) (fun b => b < sb.size ∧ used sb d b = true) h

end FsOwner
