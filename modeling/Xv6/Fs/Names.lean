import Xv6.Fs.Directory
import Xv6.Fs.Files
import Xv6.Lib.SlotMap

/- The content of a directory as a table of names. Names are the same when they agree in their
   first DIRSIZ bytes up to a NUL. -/
namespace FsNames
open Bytes FsDisk FsContent FsDirectory SlotMap

def upTo : Nat → List UInt8 → List UInt8
  | 0, _ => []
  | n + 1, name => if name.headD 0 = 0 then [] else name.headD 0 :: upTo n name.tail

def canon (name : List UInt8) : List UInt8 := upTo dirsiz name

theorem strncmp_eq_zero (p q : List UInt8) (n : Nat) : strncmp p q n = 0 ↔ upTo n p = upTo n q := by
  induction n generalizing p q with
  | zero => simp [strncmp, upTo]
  | succ n ih =>
    have byte : ((p.headD 0).toNat : Int) - (q.headD 0).toNat = 0 ↔ p.headD 0 = q.headD 0 := by
      rw [← UInt8.toNat_inj]
      omega
    rw [strncmp, upTo, upTo]
    by_cases same : p.headD 0 = q.headD 0
    · by_cases zero : q.headD 0 = 0
      · rw [same, if_neg (fun both => both.1 zero), if_pos zero, if_pos zero]
        simp
      · rw [same, if_pos ⟨zero, rfl⟩, if_neg zero, if_neg zero, ih, List.cons.injEq,
          eq_self_iff_true, true_and]
    · rw [if_neg fun both => same both.2, byte]
      simp only [same, false_iff]
      split <;> split
      · next left right => exact absurd (left.trans right.symm) same
      · exact (List.cons_ne_nil _ _).symm
      · exact List.cons_ne_nil _ _
      · exact fun eq => same (List.cons.inj eq).1

theorem namecmp_eq_zero (p q : List UInt8) : namecmp p q = 0 ↔ canon p = canon q :=
  strncmp_eq_zero p q dirsiz

theorem length_strncpy (name : List UInt8) (n : Nat) : (strncpy name n).length = n := by
  induction n generalizing name with
  | zero => rfl
  | succ n ih =>
    rw [strncpy]
    split
    · simp
    · simp [ih]

theorem upTo_strncpy (name : List UInt8) (n : Nat) : upTo n (strncpy name n) = upTo n name := by
  induction n generalizing name with
  | zero => rfl
  | succ n ih =>
    rw [strncpy, upTo, upTo]
    by_cases zero : name.headD 0 = 0
    · rw [if_pos zero, if_pos zero, List.replicate_succ, List.headD_cons, if_pos rfl]
    · rw [if_neg zero, if_neg zero, List.headD_cons, if_neg zero, List.tail_cons, ih]

theorem canon_strncpy (name : List UInt8) : canon (strncpy name dirsiz) = canon name :=
  upTo_strncpy name dirsiz

/-- An entry as a slot: the name and the inode number, or nothing. -/
def recordOf (de : Dirent) : Option (List UInt8 × Nat) :=
  if de.inum = 0 then none else some (canon de.name, de.inum.toNat)

def entryAt (c : List UInt8) (j : Nat) : Dirent := readDirent ((c.drop (16 * j)).take 16)

def records (c : List UInt8) : Table (List UInt8) Nat :=
  (List.range (c.length / 16)).map fun j => recordOf (entryAt c j)

theorem length_records (c : List UInt8) : (records c).length = c.length / 16 := by simp [records]

theorem getElem?_records (c : List UInt8) (j : Nat) :
    (records c)[j]? = if j < c.length / 16 then some (recordOf (entryAt c j)) else none := by
  rw [records, List.getElem?_map]
  split
  · next inside => rw [List.getElem?_range inside, Option.map_some]
  · next outside => rw [List.getElem?_eq_none (by simpa using outside), Option.map_none]

theorem readDirent_bytes (de : Dirent) : readDirent de.bytes = de := by
  have small : de.inum.toNat < 256 ^ 2 := de.inum.toNat_lt
  have number_ : (digits 2 de.inum.toNat ++ de.name).take 2 = digits 2 de.inum.toNat := by
    rw [List.take_append_of_le_length (by simp)]
    exact List.take_of_length_le (by simp)
  have name : (digits 2 de.inum.toNat ++ de.name).drop 2 = de.name := by
    rw [List.drop_append_of_le_length (by simp), List.drop_of_length_le (by simp), List.nil_append]
  rw [readDirent, Dirent.bytes, number_, name, number_digits, Nat.mod_eq_of_lt small,
    UInt16.ofNat_toNat]

theorem length_bytes {de : Dirent} (width : de.name.length = dirsiz) : de.bytes.length = 16 := by
  rw [Dirent.bytes, List.length_append, length_digits, width]
  rfl

theorem records_splice {c : List UInt8} {j : Nat} {de : Dirent} (aligned : c.length % 16 = 0)
    (inside : j ≤ c.length / 16)
    (width : de.name.length = dirsiz) :
    records (splice c (16 * j) de.bytes) = put (records c) j (recordOf de) := by
  have size := length_bytes width
  have length : (splice c (16 * j) de.bytes).length = max c.length (16 * j + 16) := by
    simp only [splice, List.length_append, List.length_take, List.length_drop, size]
    omega
  refine List.ext_getElem? fun n => ?_
  rw [getElem?_put _ (by rw [length_records]; exact inside), getElem?_records,
    getElem?_records, length]
  by_cases mine : n = j
  · subst mine
    rw [if_pos (by omega), if_pos rfl, entryAt]
    have here : ((splice c (16 * n) de.bytes).drop (16 * n)).take 16 = de.bytes := by
      have front : (c.take (16 * n)).length = 16 * n := by
        rw [List.length_take]
        omega
      rw [splice, List.append_assoc, List.drop_append_of_le_length (by omega),
        List.drop_of_length_le (by omega), List.nil_append,
        List.take_append_of_le_length (by omega), List.take_of_length_le (by omega)]
    rw [here, readDirent_bytes]
  · rw [if_neg mine]
    have same : n < c.length / 16 → entryAt (splice c (16 * j) de.bytes) n = entryAt c n :=
      fun small => by
        rw [entryAt, entryAt]
        congr 1
        refine List.ext_getElem? fun x => ?_
        simp only [List.getElem?_take, List.getElem?_drop]
        split
        · simp only [splice, List.getElem?_append, List.length_append, List.length_take, size,
            List.getElem?_take, List.getElem?_drop]
          split_ifs
          all_goals first | omega | (congr 1 <;> omega)
        · rfl
    by_cases small : n < c.length / 16
    · rw [if_pos (by omega), if_pos small, same small]
    · rw [if_neg (by omega), if_neg small]

end FsNames
