import Mathlib.Data.Finset.Card
import Xv6.Fs.Inode
import Xv6.Param

/- The blocks that a function of fs.c passes to log_write, in order. Each list follows the
   function it belongs to up to its end or to the panic that stops it. log_write has a panic
   of its own, which the functions at the end have beside those of balloc and bfree. -/
namespace FsLog
open Bytes FsDisk FsInode Param

/-- BBLOCK and IBLOCK. -/
def bblock (sb : Superblock) (b : Nat) : Nat := b / bpb + sb.bmapstart

def iblock (sb : Superblock) (inum : Nat) : Nat := inum / ipb + sb.inodestart

theorem bblock_small {sb : Superblock} (layout : Layout sb) {b : Nat} (small : b < sb.size) :
    sb.bmapstart ≤ bblock sb b ∧ bblock sb b < nmeta sb := by
  have below : b / bpb ≤ sb.size / bpb := Nat.div_le_div_right (Nat.le_of_lt small)
  rw [layout.nmeta, bblock]
  generalize sb.size / bpb = last, b / bpb = here at below
  omega

def balloc (sb : Superblock) (d : Disk) : List Nat :=
  match FsInode.balloc sb d with
  | some (b, _) => [bblock sb b, b]
  | none => []

def bfree (sb : Superblock) (d : Disk) (b : Nat) : List Nat :=
  if used sb d b then [bblock sb b] else []

def bmap (sb : Superblock) (d : Disk) (v : Dinode) (bn : Nat) : List Nat :=
  if h : bn < ndirect then
    if v.addrs (direct bn h) = 0 then balloc sb d else []
  else if bn - ndirect < nindirect then
    (if v.addrs indirect = 0 then balloc sb d else []) ++
      match loadIndirect sb d v with
      | none => []
      | some (d, v) =>
        let a := (v.addrs indirect).toNat
        if entry d a (bn - ndirect) = 0 then
          match FsInode.balloc sb d with
          | some _ => balloc sb d ++ [a]
          | none => []
        else []
  else []

def readBlocks (sb : Superblock) : Nat → Disk → Dinode → Nat → Nat → List Nat
  | 0, _, _, _, _ => []
  | fuel + 1, d, v, off, n =>
    if n = 0 then [] else
      bmap sb d v (off / bsize) ++
        match FsInode.bmap sb d v (off / bsize) with
        | none => []
        | some (_, d, v) =>
          let m := min n (bsize - off % bsize)
          readBlocks sb fuel d v (off + m) (n - m)

def readi (sb : Superblock) (d : Disk) (v : Dinode) (off n : UInt32) : List Nat :=
  if off > v.size ∨ off + n < off then []
  else
    let n := if off + n > v.size then v.size - off else n
    readBlocks sb n.toNat d v off.toNat n.toNat

def writeBlocks (sb : Superblock) : Nat → Disk → Dinode → (Nat → UInt8) → Nat → Nat → List Nat
  | 0, _, _, _, _, _ => []
  | fuel + 1, d, v, src, off, n =>
    if n = 0 then [] else
      bmap sb d v (off / bsize) ++
        match FsInode.bmap sb d v (off / bsize) with
        | none => []
        | some (b, d, v) =>
          let m := min n (bsize - off % bsize)
          let d := store d (bsize * b + off % bsize) ((List.range m).map src)
          b :: writeBlocks sb fuel d v (fun i => src (m + i)) (off + m) (n - m)

def writei (sb : Superblock) (inum : Nat) (d : Disk) (v : Dinode) (src : Nat → UInt8)
    (off n : UInt32) : List Nat :=
  if off > v.size ∨ off + n < off then []
  else if off + n > UInt32.ofNat (maxfile * bsize) then []
  else
    writeBlocks sb n.toNat d v src off.toNat n.toNat ++
      match FsInode.writeBlocks sb n.toNat d v src off.toNat n.toNat with
      | none => []
      | some (_, v) => if n > 0 ∧ off + n > v.size then [iblock sb inum] else []

def freeDirect (sb : Superblock) : List (Fin 13) → Disk → Dinode → List Nat
  | [], _, _ => []
  | i :: is, d, v =>
    if v.addrs i = 0 then freeDirect sb is d v
    else bfree sb d (v.addrs i).toNat ++
      match FsInode.bfree sb d (v.addrs i).toNat with
      | none => []
      | some d => freeDirect sb is d (v.setAddr i 0)

def freeEntries (sb : Superblock) (b : Nat) : List Nat → Disk → List Nat
  | [], _ => []
  | j :: js, d =>
    if entry d b j = 0 then freeEntries sb b js d
    else bfree sb d (entry d b j).toNat ++
      match FsInode.bfree sb d (entry d b j).toNat with
      | none => []
      | some d => freeEntries sb b js d

def itrunc (sb : Superblock) (inum : Nat) (d : Disk) (v : Dinode) : List Nat :=
  freeDirect sb ((List.finRange 13).take ndirect) d v ++
    match FsInode.freeDirect sb ((List.finRange 13).take ndirect) d v with
    | none => []
    | some (d, v) =>
      let a := v.addrs indirect
      if a = 0 then [iblock sb inum]
      else freeEntries sb a.toNat (List.range nindirect) d ++
        match FsInode.freeEntries sb a.toNat (List.range nindirect) d with
        | none => []
        | some d =>
          bfree sb d a.toNat ++
            match FsInode.bfree sb d a.toNat with
            | none => []
            | some _ => [iblock sb inum]

/-- log_write of block `b` in a transaction with the blocks `lh` in the header of a log of
    `size` blocks. No value is panic("too big a transaction"); the test comes before the
    search for `b` in the header. -/
def logWrite (size : Nat) (lh : List Nat) (b : Nat) : Option (List Nat) :=
  if lh.length ≥ logSize ∨ (lh.length : Int) ≥ size - 1 then none
  else some (if b ∈ lh then lh else lh ++ [b])

def logWrites (size : Nat) (lh l : List Nat) : Option (List Nat) := l.foldlM (logWrite size) lh

def writeiLogged (sb : Superblock) (lh : List Nat) (inum : Nat) (d : Disk) (v : Dinode)
    (src : Nat → UInt8) (off n : UInt32) : Option (List Nat × Option UInt32 × Disk × Dinode) := do
  let (r, e, w) ← FsInode.writei sb inum d v src off n
  let lh ← logWrites sb.nlog lh (writei sb inum d v src off n)
  some (lh, r, e, w)

/-- The blocks a transaction can log before log_write panics. -/
def capacity (size : Nat) : Nat := min logSize (size - 1)

/-- Every log_write of `l` finds room. The last block may fill the header. -/
def LogRoom (size : Nat) (lh l : List Nat) : Prop :=
  l = [] ∨ (lh ++ l.dropLast).toFinset.card < capacity size

variable {size b : Nat} {lh l : List Nat}

theorem logWrite_eq : logWrite size lh b =
    if lh.length < capacity size then some (if b ∈ lh then lh else lh ++ [b]) else none := by
  have test : (lh.length ≥ logSize ∨ (lh.length : Int) ≥ size - 1) ↔
      ¬ lh.length < capacity size := by
    unfold capacity
    omega
  simp only [logWrite, test, ite_not]

theorem absorbed_nodup (distinct : lh.Nodup) : (if b ∈ lh then lh else lh ++ [b]).Nodup := by
  split
  · exact distinct
  next absent =>
    refine List.nodup_append.mpr ⟨distinct, List.nodup_singleton b, fun c mem x other same => ?_⟩
    exact absent (List.mem_singleton.mp other ▸ same ▸ mem)

theorem mem_absorbed {c : Nat} : c ∈ (if b ∈ lh then lh else lh ++ [b]) ↔ c ∈ lh ∨ c = b := by
  split
  · grind
  · simp

theorem logRoom_cons (distinct : lh.Nodup) : LogRoom size lh (b :: l) ↔
    lh.length < capacity size ∧ LogRoom size (if b ∈ lh then lh else lh ++ [b]) l := by
  cases l with
  | nil => simp [LogRoom, List.toFinset_card_of_nodup distinct]
  | cons c l =>
    have same : (lh ++ (b :: c :: l).dropLast).toFinset =
        ((if b ∈ lh then lh else lh ++ [b]) ++ (c :: l).dropLast).toFinset := by
      ext x
      simp only [List.mem_toFinset, List.mem_append, mem_absorbed, List.dropLast_cons_of_ne_nil
        (List.cons_ne_nil c l), List.mem_cons, or_assoc]
    have first : lh.length ≤ (lh ++ (b :: c :: l).dropLast).toFinset.card := by
      rw [← List.toFinset_card_of_nodup distinct]
      refine Finset.card_le_card fun x mem => ?_
      rw [List.mem_toFinset] at mem ⊢
      exact List.mem_append_left _ mem
    simp only [LogRoom, reduceCtorEq, false_or, ← same]
    omega

theorem logWrites_room (distinct : lh.Nodup) (room : LogRoom size lh l) :
    ∃ lh', logWrites size lh l = some lh' ∧ lh'.Nodup ∧ ∀ b, b ∈ lh' ↔ b ∈ lh ∨ b ∈ l := by
  induction l generalizing lh with
  | nil => exact ⟨lh, rfl, distinct, fun b => by simp⟩
  | cons b l ih =>
    obtain ⟨here,rest⟩ := (logRoom_cons distinct).mp room
    obtain ⟨lh',run,distinct',mem⟩ := ih (absorbed_nodup distinct) rest
    refine ⟨lh', ?_, distinct', fun c => ?_⟩
    · rw [logWrites, List.foldlM_cons, logWrite_eq, if_pos here]
      exact run
    · rw [mem, mem_absorbed, List.mem_cons, or_assoc]

theorem logWrites_full (distinct : lh.Nodup) (full : ¬ LogRoom size lh l) :
    logWrites size lh l = none := by
  induction l generalizing lh with
  | nil => exact absurd (Or.inl rfl) full
  | cons b l ih =>
    rw [logWrites, List.foldlM_cons, logWrite_eq]
    by_cases here : lh.length < capacity size
    · rw [if_pos here]
      exact ih (absorbed_nodup distinct) fun room => full ((logRoom_cons distinct).mpr ⟨here,room⟩)
    · rw [if_neg here]
      rfl

theorem logRoom_of_card {S : Finset Nat} (few : lh.length + S.card < capacity size)
    (within : ∀ c ∈ l.dropLast, c ∈ S) : LogRoom size lh l := by
  right
  have bound : (lh ++ l.dropLast).toFinset ⊆ lh.toFinset ∪ S := by
    intro c mem
    rw [List.mem_toFinset, List.mem_append] at mem
    rw [Finset.mem_union, List.mem_toFinset]
    exact mem.imp_right (within c)
  have card := Finset.card_le_card bound
  have split := Finset.card_union_le lh.toFinset S
  have old := lh.toFinset_card_le
  omega

end FsLog
