import Mathlib.Data.List.FinRange
import Mathlib.Logic.Function.Basic
import Xv6.Lib.Bytes

/- The format of the disk: fs.h over a map of bytes in which block `b` starts at `bsize * b`.
   The log and the buffer cache are transparent to the file system, so a block that bread
   returns is the bytes of the disk and log_write keeps what was stored there. -/
namespace FsDisk
open Bytes

def bsize : Nat := 512
def ndirect : Nat := 12
def nindirect : Nat := 128
def maxfile : Nat := ndirect + nindirect
def ipb : Nat := 8
def bpb : Nat := bsize * 8
def dirsiz : Nat := 14

def tDir : Int16 := 1
def tFile : Int16 := 2
def tDev : Int16 := 3

abbrev Disk := Nat → UInt8

structure Superblock where
  size : Nat
  nblocks : Nat
  ninodes : Nat
  nlog : Nat
  logstart : Nat
  inodestart : Nat
  bmapstart : Nat

structure Dinode where
  type : Int16
  major : Int16
  minor : Int16
  nlink : Int16
  size : UInt32
  addrs : Fin 13 → UInt32

def Dinode.setAddr (v : Dinode) (i : Fin 13) (a : UInt32) : Dinode :=
  { v with addrs := Function.update v.addrs i a }

def nmeta (sb : Superblock) : Nat := sb.size - sb.nblocks

/-- The layout mkfs computes. A directory entry has two bytes for an inode number, and a block
    number has four. -/
structure Layout (sb : Superblock) : Prop where
  logstart : sb.logstart = 2
  inodestart : sb.inodestart = 2 + sb.nlog
  bmapstart : sb.bmapstart = sb.inodestart + sb.ninodes / ipb + 1
  nmeta : nmeta sb = sb.bmapstart + sb.size / bpb + 1
  ninodes : sb.ninodes ≤ 65536
  size : sb.size < 4294967296

def dinodeAddr (sb : Superblock) (inum : Nat) : Nat :=
  bsize * (inum / ipb + sb.inodestart) + 64 * (inum % ipb)

def short (n : Nat) : Int16 := (UInt16.ofNat n).toInt16

def readDinode (d : Disk) (a : Nat) : Dinode where
  type := short (get d a 2)
  major := short (get d (a + 2) 2)
  minor := short (get d (a + 4) 2)
  nlink := short (get d (a + 6) 2)
  size := UInt32.ofNat (get d (a + 8) 4)
  addrs i := UInt32.ofNat (get d (a + 12 + 4 * i) 4)

def Dinode.bytes (v : Dinode) : List UInt8 :=
  digits 2 v.type.toUInt16.toNat ++ digits 2 v.major.toUInt16.toNat ++
  digits 2 v.minor.toUInt16.toNat ++ digits 2 v.nlink.toUInt16.toNat ++ digits 4 v.size.toNat ++
  (List.finRange 13).flatMap fun i => digits 4 (v.addrs i).toNat

def dinode (sb : Superblock) (d : Disk) (inum : Nat) : Dinode := readDinode d (dinodeAddr sb inum)

def writeDinode (sb : Superblock) (d : Disk) (inum : Nat) (v : Dinode) : Disk :=
  store d (dinodeAddr sb inum) v.bytes

def bitAddr (sb : Superblock) (b : Nat) : Nat := bsize * (b / bpb + sb.bmapstart) + b % bpb / 8

def used (sb : Superblock) (d : Disk) (b : Nat) : Bool := testBit (d (bitAddr sb b)) (b % bpb % 8)

def mark (sb : Superblock) (d : Disk) (b : Nat) : Disk :=
  Function.update d (bitAddr sb b) (setBit (d (bitAddr sb b)) (b % bpb % 8))

def unmark (sb : Superblock) (d : Disk) (b : Nat) : Disk :=
  Function.update d (bitAddr sb b) (clearBit (d (bitAddr sb b)) (b % bpb % 8))

def entry (d : Disk) (b j : Nat) : UInt32 := UInt32.ofNat (get d (bsize * b + 4 * j) 4)

def setEntry (d : Disk) (b j : Nat) (v : UInt32) : Disk := put d (bsize * b + 4 * j) 4 v.toNat

def zeroBlock (d : Disk) (b : Nat) : Disk := store d (bsize * b) (List.replicate bsize 0)

theorem length_bytes (v : Dinode) : v.bytes.length = 64 := by
  simp [Dinode.bytes, List.length_flatMap]

theorem short_number (v : Int16) : short (v.toUInt16.toNat % 256 ^ 2) = v := by
  have small : v.toUInt16.toNat < 256 ^ 2 := v.toUInt16.toNat_lt
  rw [short, Nat.mod_eq_of_lt small, UInt16.ofNat_toNat]
  rfl

theorem word_number (v : UInt32) : UInt32.ofNat (v.toNat % 256 ^ 4) = v := by
  have small : v.toNat < 256 ^ 4 := v.toNat_lt
  rw [Nat.mod_eq_of_lt small, UInt32.ofNat_toNat]

theorem readDinode_store (d : Disk) (a : Nat) (v : Dinode) :
    readDinode (store d a v.bytes) a = v := by
  have part : ∀ n k, n + k ≤ 64 →
    get (store d a v.bytes) (a + n) k = number ((v.bytes.drop n).take k) :=
      fun n k inside => get_store_inside (by rwa [length_bytes])
  have words : ∀ i : Fin 13, (v.bytes.drop (12 + 4 * i)).take 4 = digits 4 (v.addrs i).toNat := by
    intro i
    have cut := take_drop_flatMap (f := fun i : Fin 13 => digits 4 (v.addrs i).toNat) (k := 4)
      (fun _ => length_digits ..) (l := List.finRange 13) (i := i) (by simp)
    rw [← List.drop_drop]
    simpa [Dinode.bytes, List.drop_append, digits] using cut
  have shorts : (v.bytes.drop 0).take 2 = digits 2 v.type.toUInt16.toNat ∧
      (v.bytes.drop 2).take 2 = digits 2 v.major.toUInt16.toNat ∧
      (v.bytes.drop 4).take 2 = digits 2 v.minor.toUInt16.toNat ∧
      (v.bytes.drop 6).take 2 = digits 2 v.nlink.toUInt16.toNat ∧
      (v.bytes.drop 8).take 4 = digits 4 v.size.toNat := ⟨rfl, rfl, rfl, rfl, rfl⟩
  obtain ⟨type,major,minor,nlink,size⟩ := shorts
  have first := part 0 2 (by omega)
  rw [Nat.add_zero] at first
  have fields : readDinode (store d a v.bytes) a =
      ⟨short (v.type.toUInt16.toNat % 256 ^ 2), short (v.major.toUInt16.toNat % 256 ^ 2),
        short (v.minor.toUInt16.toNat % 256 ^ 2), short (v.nlink.toUInt16.toNat % 256 ^ 2),
        UInt32.ofNat (v.size.toNat % 256 ^ 4),
          fun i => UInt32.ofNat ((v.addrs i).toNat % 256 ^ 4)⟩ := by
    simp only [readDinode, first, part 2 2 (by omega), part 4 2 (by omega), part 6 2 (by omega),
      part 8 4 (by omega), type, major, minor, nlink, size, number_digits, Dinode.mk.injEq,
        true_and]
    funext i
    rw [Nat.add_assoc, part _ _ (by omega), words, number_digits]
  simp only [fields, short_number, word_number]

theorem bitAddr_eq (sb : Superblock) (b : Nat) : bitAddr sb b = bsize * sb.bmapstart + b / 8 := by
  simp only [bitAddr, bsize, bpb]
  omega

theorem dinodeAddr_eq (sb : Superblock) (i : Nat) :
    dinodeAddr sb i = bsize * sb.inodestart + 64 * i := by
  simp only [dinodeAddr, bsize, ipb]
  omega

theorem bit_apart {sb : Superblock} {b c : Nat} (addr : bitAddr sb c = bitAddr sb b) :
    c % bpb % 8 = b % bpb % 8 ↔ c = b := by
  rw [bitAddr_eq, bitAddr_eq] at addr
  simp only [bpb, bsize]
  omega

theorem used_mark (sb : Superblock) (d : Disk) (b c : Nat) :
    used sb (mark sb d b) c = (used sb d c || decide (c = b)) := by
  have low : b % bpb % 8 < 8 := Nat.mod_lt _ (by omega)
  by_cases same : bitAddr sb c = bitAddr sb b
  · rw [used, mark, same, Function.update_self, testBit_setBit _ low, used, same]
    simp only [bit_apart same]
  · have other : c ≠ b := by
      rintro rfl
      exact same rfl
    simp [used, mark, same, other]

def SameInodes (sb : Superblock) (d e : Disk) : Prop :=
  ∀ x, bsize * sb.inodestart ≤ x → x < bsize * sb.bmapstart → e x = d x

def SameMap (sb : Superblock) (d e : Disk) : Prop :=
  ∀ x, bsize * sb.bmapstart ≤ x → x < bsize * nmeta sb → e x = d x

def SameBlock (d e : Disk) (b : Nat) : Prop := ∀ x, bsize * b ≤ x → x < bsize * (b + 1) → e x = d x

variable {sb : Superblock} {d e : Disk} {b c i j : Nat}

theorem readDinode_congr {a : Nat} (same : ∀ x, a ≤ x → x < a + 64 → e x = d x) :
    readDinode e a = readDinode d a := by
  have part : ∀ n k, n + k ≤ 64 → get e (a + n) k = get d (a + n) k :=
    fun n k inside => get_congr fun x low high => same x (by omega) (by omega)
  have first := part 0 2 (by omega)
  rw [Nat.add_zero] at first
  simp only [readDinode, first, part 2 2 (by omega), part 4 2 (by omega), part 6 2 (by omega),
    part 8 4 (by omega), Dinode.mk.injEq, true_and]
  funext i
  rw [Nat.add_assoc, part _ _ (by omega)]

theorem bmapstart_below (layout : Layout sb) : sb.bmapstart < nmeta sb := by
  rw [layout.nmeta]
  exact Nat.lt_succ_of_le (Nat.le_add_right _ _)

theorem dinode_bounds (layout : Layout sb) (bound : i < sb.ninodes) :
    bsize * sb.inodestart ≤ dinodeAddr sb i ∧ dinodeAddr sb i + 64 ≤ bsize * sb.bmapstart := by
  have := layout.bmapstart
  simp only [dinodeAddr_eq, bsize, ipb] at *
  omega

theorem bit_bounds (layout : Layout sb) (bound : b < sb.size) :
    bsize * sb.bmapstart ≤ bitAddr sb b ∧ bitAddr sb b < bsize * nmeta sb := by
  have := layout.nmeta
  simp only [bitAddr_eq, bsize, bpb] at *
  omega

theorem dinode_congr (layout : Layout sb) (bound : i < sb.ninodes) (same : SameInodes sb d e) :
    dinode sb e i = dinode sb d i := by
  have := dinode_bounds layout bound
  exact readDinode_congr fun x low high => same x (by omega) (by omega)

theorem used_congr (layout : Layout sb) (bound : b < sb.size) (same : SameMap sb d e) :
    used sb e b = used sb d b := by
  obtain ⟨low,high⟩ := bit_bounds layout bound
  rw [used, same _ low high, used]

theorem entry_congr (bound : j < nindirect) (same : SameBlock d e b) :
    entry e b j = entry d b j := by
  rw [entry, entry, get_congr]
  intro x low high
  simp only [nindirect, bsize] at *
  exact same x (by simp only [bsize]; omega) (by simp only [bsize]; omega)

theorem store_areas (layout : Layout sb) (data : nmeta sb ≤ b) {o : Nat} {bs : List UInt8}
    (inside : o + bs.length ≤ bsize) :
    SameInodes sb d (store d (bsize * b + o) bs) ∧ SameMap sb d (store d (bsize * b + o) bs) ∧
      ∀ c, c ≠ b → SameBlock d (store d (bsize * b + o) bs) c := by
  have last := bmapstart_below layout
  refine ⟨fun x low high => ?_, fun x low high => ?_, fun c other x low high => ?_⟩
  all_goals refine store_outside ?_
  all_goals simp only [bsize] at *; omega

theorem zeroBlock_areas (layout : Layout sb) (data : nmeta sb ≤ b) :
    SameInodes sb d (zeroBlock d b) ∧ SameMap sb d (zeroBlock d b) ∧
      ∀ c, c ≠ b → SameBlock d (zeroBlock d b) c :=
  store_areas layout data (o := 0) (by simp)

theorem setEntry_areas (layout : Layout sb) (data : nmeta sb ≤ b) (bound : j < nindirect)
    (v : UInt32) : SameInodes sb d (setEntry d b j v) ∧ SameMap sb d (setEntry d b j v) ∧
      ∀ c, c ≠ b → SameBlock d (setEntry d b j v) c := by
  refine store_areas layout data ?_
  simp only [length_digits, nindirect, bsize] at *
  omega

theorem writeDinode_areas (layout : Layout sb) (bound : i < sb.ninodes) (v : Dinode) :
    SameMap sb d (writeDinode sb d i v) ∧
      ∀ c, nmeta sb ≤ c → SameBlock d (writeDinode sb d i v) c := by
  have := dinode_bounds layout bound
  have := bmapstart_below layout
  have := length_bytes v
  refine ⟨fun x low high => ?_, fun c data x low high => ?_⟩
  all_goals refine store_outside ?_
  all_goals simp only [bsize] at *; omega

theorem update_bit_areas (layout : Layout sb) (bound : b < sb.size) (w : UInt8) :
    SameInodes sb d (Function.update d (bitAddr sb b) w) ∧
      ∀ c, nmeta sb ≤ c → SameBlock d (Function.update d (bitAddr sb b) w) c := by
  obtain ⟨low,high⟩ := bit_bounds layout bound
  refine ⟨fun x below above => ?_, fun c data x below above => ?_⟩
  all_goals refine Function.update_of_ne ?_ _ _
  all_goals simp only [bsize] at *; omega

theorem dinode_writeDinode (sb : Superblock) (d : Disk) (i j : Nat) (v : Dinode) :
    dinode sb (writeDinode sb d i v) j = if j = i then v else dinode sb d j := by
  by_cases same : j = i
  · subst same
    rw [dinode, writeDinode, readDinode_store, if_pos rfl]
  · rw [dinode, writeDinode, readDinode_congr, if_neg same, dinode]
    intro x low high
    refine store_outside ?_
    rw [length_bytes]
    rw [dinodeAddr_eq] at *
    omega

theorem entry_setEntry (d : Disk) (b j k : Nat) (v : UInt32) :
    entry (setEntry d b j v) b k = if k = j then v else entry d b k := by
  by_cases same : k = j
  · subst same
    rw [entry, setEntry, get_put_same, word_number, if_pos rfl]
  · rw [entry, setEntry, put, get_store_outside (by rw [length_digits]; omega), if_neg same, entry]

theorem zeroBlock_inside (d : Disk) {b x : Nat} (low : bsize * b ≤ x) (high : x < bsize * (b + 1)) :
    zeroBlock d b x = 0 := by
  have inside : x < bsize * b + (List.replicate bsize (0 : UInt8)).length := by
    rw [List.length_replicate]
    exact high
  rw [zeroBlock, store_inside low inside, List.get_eq_getElem, List.getElem_replicate]

theorem entry_zeroBlock (d : Disk) (b : Nat) (bound : j < nindirect) :
    entry (zeroBlock d b) b j = 0 := by
  have zeros : load (zeroBlock d b) (bsize * b + 4 * j) 4 = List.replicate 4 0 := by
    refine List.ext_getElem (by simp) fun i low high => ?_
    simp only [List.length_replicate] at high
    simp only [load, List.getElem_map, List.getElem_range, List.getElem_replicate]
    simp only [nindirect] at bound
    exact zeroBlock_inside d (by omega) (by simp only [bsize]; omega)
  rw [entry, Bytes.get, zeros]
  rfl

end FsDisk
